import DeferredLog.Proofs.CallSite.Occurrences
import DeferredLog.Proofs.Program.Nesting
import DeferredLog.Proofs.Token.Boundary

/-!
# Locating calls

The statements that are located are those around the occurrences of the logger's names, each once.
Since statements nest, the smallest one around the first character of a statement is that statement.

* `CallSite.mem_locate_iff`: the statements that are located.
-/

namespace DeferredLog

open DeferredLog.Tree

/-! ## Collecting -/

namespace CallSite

variable {x y : Statement} {xs : List Statement}

theorem mem_insertStatement (h : ∀ z ∈ xs, z.id = x.id → z = x) :
    y ∈ insertStatement x xs ↔ y = x ∨ y ∈ xs := by
  induction xs with
  | nil => simp [insertStatement]
  | cons first rest ih =>
    have ih := ih fun z hz => h z (List.mem_cons_of_mem _ hz)
    rw [insertStatement]
    split
    · simp
    · split
      · rename_i he
        obtain rfl := h first List.mem_cons_self he.symm
        simp
      · simp only [List.mem_cons, ih]
        tauto

theorem mem_foldl_insertStatement {around : List Statement}
    (h : ∀ a ∈ xs ++ around, ∀ b ∈ xs ++ around, a.id = b.id → a = b) :
    y ∈ around.foldl (fun found s => insertStatement s found) xs ↔ y ∈ xs ∨ y ∈ around := by
  induction around generalizing xs with
  | nil => simp
  | cons s around ih =>
    have hs : ∀ z ∈ xs, z.id = s.id → z = s := fun z hz he =>
      h z (List.mem_append_left _ hz) s (by simp) he
    have hsub : ∀ z ∈ insertStatement s xs ++ around, z ∈ xs ++ s :: around := by
      intro z hz
      rcases List.mem_append.mp hz with hz | hz
      · rcases (mem_insertStatement hs).mp hz with rfl | hz <;> simp [*]
      · simp [hz]
    rw [List.foldl_cons, ih fun a ha b hb => h a (hsub a ha) b (hsub b hb), mem_insertStatement hs,
      List.mem_cons]
    tauto

/-- Statements in the order of their numbers. -/
def InOrder (xs : List Statement) : Prop :=
  xs.Pairwise fun a b => a.id < b.id

theorem mem_of_mem_insertStatement (h : y ∈ insertStatement x xs) : y = x ∨ y ∈ xs := by
  induction xs with
  | nil => simpa [insertStatement] using h
  | cons first rest ih =>
    rw [insertStatement] at h
    split at h
    · simpa using h
    · split at h
      · exact .inr h
      · rcases List.mem_cons.mp h with rfl | h
        · exact .inr List.mem_cons_self
        · exact (ih h).imp_right (List.mem_cons_of_mem _)

theorem inOrder_insertStatement (h : InOrder xs) : InOrder (insertStatement x xs) := by
  induction h with
  | nil => exact List.pairwise_singleton ..
  | @cons first rest hfirst hrest ih =>
    rw [insertStatement]
    split
    · rename_i hlt
      refine .cons (fun z hz => ?_) (.cons hfirst hrest)
      rcases List.mem_cons.mp hz with rfl | hz
      · exact hlt
      · exact Nat.lt_trans hlt (hfirst z hz)
    · split
      · exact .cons hfirst hrest
      · refine .cons (fun z hz => ?_) ih
        rcases mem_of_mem_insertStatement hz with rfl | hz
        · omega
        · exact hfirst z hz

theorem inOrder_foldl_insertStatement {around : List Statement} (h : InOrder xs) :
    InOrder (around.foldl (fun found s => insertStatement s found) xs) := by
  induction around generalizing xs with
  | nil => exact h
  | cons s around ih => exact ih (inOrder_insertStatement h)

/-! ## Occurrences of name tokens -/

/-- A text ahead of a place starts with the text ahead of an earlier one. -/
theorem split_of_size_le {a b c d : List Char} (h : a ++ b = c ++ d)
    (hle : Text.size a ≤ Text.size c) : ∃ m, c = a ++ m := by
  rcases List.append_eq_append_iff.mp h with ⟨m, hm, -⟩ | ⟨m, hm, -⟩
  · exact ⟨m, hm⟩
  · subst hm
    rw [Text.size_append] at hle
    cases m with
    | nil => exact ⟨[], by simp⟩
    | cons c m =>
      have := c.utf8Size_pos
      rw [Text.size_cons] at hle
      omega

/-- **A name token is found** behind the end of any token before it, unless a number runs into it. -/
theorem start_mem_occurrences {source : List Char} {tokens pre post : List Token} {head : Token}
    (hscan : Token.scan source = .ok tokens) (ht : tokens = pre ++ head :: post)
    (hk : head.kind = .ident)
    (hnumber : ∀ last, pre.getLast? = some last → last.kind = .number → head.newlineBefore = true)
    {start : Nat} (hstart : ∃ t ∈ tokens, t.stop = start) (hle : start ≤ head.start) :
    head.start ∈ occurrences source head.text start := by
  have hscans := Token.Scans.iff.mpr hscan
  obtain ⟨t, htm, rfl⟩ := hstart
  obtain ⟨a, d, ha, hasize⟩ := Token.boundary_stop hscan htm
  have hline := hscans.start_le t htm
  have hpos := hscans.ordered.nonempty t htm
  obtain ⟨before, after, hafter, hsize, ⟨s, hs, -⟩, hparts, hlast, hbefore, hnil⟩ :=
    hscans.name_at ht hk
  have hsource : source = ((Token.interpreterLine source).1 ++ before) ++
      (head.text.toList ++ after) := by
    rw [List.append_assoc, ← hafter, Token.interpreterLine_append]
  rw [← hsize, ← Text.size_append] at hle ⊢
  obtain ⟨m, hm⟩ := split_of_size_le (ha.symm.trans hsource) (by omega)
  refine mem_occurrences hsource ?_ hparts hlast ⟨a, m, hm, hasize, ?_⟩
  · intro hne
    rw [hne] at hs
    cases hs
  · have hmsize := congrArg Text.size hm
    rw [Text.size_append, Text.size_append] at hmsize
    cases hb : before.getLast? with
    | none =>
      obtain rfl := List.getLast?_eq_none_iff.mp hb
      cases m with
      | nil => rfl
      | cons c m =>
        have := c.utf8Size_pos
        simp only [Text.size_nil, Text.size_cons] at hmsize
        omega
    | some c =>
      by_contra hn
      have hmne : m ≠ [] := by
        rintro rfl
        exact hn rfl
      have hmc : m.getLast? = some c := by
        have := congrArg List.getLast? hm
        rw [List.getLast?_append, hb, List.getLast?_append] at this
        cases h : m.getLast? with
        | none => exact absurd (List.getLast?_eq_none_iff.mp h) hmne
        | some e => simpa [h] using this.symm
      rw [hmc, Option.any_some, Bool.not_eq_false] at hn
      obtain ⟨⟨last, hl, hnum⟩, hline⟩ := hbefore c hb hn
      rw [hnumber last hl hnum] at hline
      cases hline

/-! ## Located statements -/

/-- Whether a statement behind an offset calls the logger by one of some names. -/
def Invokes (program : Program) (names : List String) (start : Nat) (s : Statement) : Prop :=
  start ≤ s.start ∧
    ∃ name ∈ names, CallOf name s.trees ∧ program.isShadowed name s.scope = false

/-- The offsets at which the located calls of the logger end. -/
def callEnds (source : List Char) (program : Program) (names : List String) (start : Nat) :
    List Nat :=
  (locate source program names start).filterMap (·.callEnd)

section Located

variable {source : List Char} {tokens : List Token} {trees : List Tree} {items : List Item}
  {names : List String} {start : Nat} {tree : Tree}

theorem callOf_head {name : String} {x : List Tree} (h : CallOf name x) :
    ∃ head more, x = .leaf head :: more ∧ head.kind = .ident ∧ head.text = name := by
  cases h with
  | level hk ht => exact ⟨_, _, rfl, hk, ht⟩
  | modifier hk ht => exact ⟨_, _, rfl, hk, ht⟩

/-- A call is found by its name. -/
theorem start_mem_allOccurrences (h : Parses source tokens trees items)
    (hstart : ∃ t ∈ tokens, t.stop = start) {s : Statement}
    (hs : s.trees ∈ Item.statementsAll items) (hle : start ≤ s.start) {name : String}
    (hm : name ∈ names) (hc : CallOf name s.trees) :
    s.start ∈ allOccurrences source names start := by
  obtain ⟨-, pre, post, htokens, -, hnumber⟩ := h.sited _ hs
  obtain ⟨head, more, hx, hk, rfl⟩ := callOf_head hc
  have hstartof : s.start = head.start := by
    rw [Statement.start, hx]
    rfl
  rw [hstartof] at hle ⊢
  rw [hx] at htokens hnumber
  have hhead := start_mem_occurrences h.scan htokens hk (fun last hl hn => ?_) hstart hle
  · exact List.mem_flatMap.mpr ⟨head.text, hm, hhead⟩
  · rcases hnumber last (by simpa using hl) hn _ rfl with h | h
    · simp [Tree.ident?, hk] at h
    · exact h

theorem mem_trees {program : Program} {s : Statement} (h : s ∈ program.statements.toList) :
    s.trees ∈ program.trees :=
  List.mem_map_of_mem h

theorem mem_statementsAll {s : Statement}
    (h : s ∈ (Program.ofOutline items).statements.toList) : s.trees ∈ Item.statementsAll items := by
  rw [← Program.trees_ofOutline]
  exact mem_trees h

theorem start_lt_stop (h : Parses source tokens trees items) {s : Statement}
    (hs : s ∈ (Program.ofOutline items).statements.toList) : s.start < s.stop :=
  ((h.sited _ (mem_statementsAll hs)).bounds h.ordered).2.2

/-- No two statements end at one offset. -/
theorem nodup_stop (h : Parses source tokens trees items) :
    ((Program.ofOutline items).statements.toList.map (·.stop)).Nodup := by
  have hapart : ((Program.ofOutline items).statements.toList.map (·.trees)).Pairwise Apart := by
    rw [← Program.trees, Program.trees_ofOutline]
    exact h.apart
  refine List.pairwise_map.mpr ((List.pairwise_map.mp hapart).imp_of_mem fun {a b} ha hb hab => ?_)
  have hpos := start_lt_stop h hb
  have hsep : a.stop ≤ b.start ∨ a.start < b.start ∧ b.stop < a.stop := hab
  omega

/-- The statements that the names occur in. -/
def around (source : List Char) (program : Program) (names : List String) (start : Nat) :
    List Statement :=
  (allOccurrences source names start).filterMap program.enclosing?

theorem mem_around {program : Program} {s : Statement} (h : s ∈ around source program names start) :
    s ∈ program.statements.toList ∧ ∃ o, start ≤ o ∧ s.start ≤ o ∧ o < s.stop := by
  obtain ⟨o, ho, he⟩ := List.mem_filterMap.mp h
  obtain ⟨name, -, ho⟩ := List.mem_flatMap.mp ho
  obtain ⟨hs, hc⟩ := Program.mem_of_enclosing? he
  exact ⟨hs, o, le_of_mem_occurrences ho, Statement.span_contains_iff.mp hc⟩

theorem callEnds_eq (source : List Char) (program : Program) (names : List String) (start : Nat) :
    callEnds source program names start =
      ((around source program names start).foldl (fun found s => insertStatement s found)
        []).filterMap (callEnd? program names) := by
  simp only [callEnds, locate, List.filterMap_map]
  rfl

/-- What is collected are the statements that the names occur in. -/
theorem mem_collected {s : Statement} :
    s ∈ (around source (.ofOutline items) names start).foldl
      (fun found s => insertStatement s found) [] ↔
      s ∈ around source (.ofOutline items) names start := by
  have hinj : ∀ a ∈ around source (.ofOutline items) names start,
      ∀ b ∈ around source (.ofOutline items) names start, a.id = b.id → a = b :=
    fun a ha b hb => (Program.numbered_ofOutline items).inj (mem_around ha).1 (mem_around hb).1
  rw [mem_foldl_insertStatement (by simpa using hinj)]
  simp

/-- **The calls of the logger behind its import are located, and nothing else is.** -/
theorem mem_callEnds_iff (h : Parses source tokens trees items) (hm : tree ∈ trees)
    (hc : ∀ name x, CallOf name x → tree ∉ x) {stop : Nat} :
    stop ∈ callEnds source (.ofOutline items) names tree.stop ↔
      ∃ s ∈ (Program.ofOutline items).statements.toList,
        Invokes (.ofOutline items) names tree.stop s ∧ s.stop = stop := by
  rw [callEnds_eq]
  simp only [List.mem_filterMap, mem_collected, callEnd?_eq_some_iff]
  constructor
  · rintro ⟨s, hs, ⟨name, hn, hcall, hshadow⟩, hstop⟩
    obtain ⟨hs, o, ho, ho₁, ho₂⟩ := mem_around hs
    refine ⟨s, hs, ⟨?_, name, hn, hcall, hshadow⟩, hstop⟩
    have hclear : tree.stop ≤ s.start ∨ s.stop ≤ tree.stop :=
      h.clear hm hc _ (mem_statementsAll hs) ⟨name, hcall⟩
    omega
  · rintro ⟨s, hs, ⟨hle, name, hn, hcall, hshadow⟩, hstop⟩
    have hstart : ∃ t ∈ tokens, t.stop = tree.stop := by
      rw [← h.flattenAll_eq]
      exact exists_stop_of_mem hm
    have hapart : (Program.ofOutline items).trees.Pairwise Apart := by
      rw [Program.trees_ofOutline]
      exact h.apart
    refine ⟨s, List.mem_filterMap.mpr ⟨s.start, ?_, ?_⟩, ⟨name, hn, hcall, hshadow⟩, hstop⟩
    · exact start_mem_allOccurrences h hstart (mem_statementsAll hs) hle hn hcall
    · exact Program.enclosing?_start hapart (fun y hy => start_lt_stop h hy) hs

/-- No offset is located twice. -/
theorem nodup_callEnds (h : Parses source tokens trees items) :
    (callEnds source (.ofOutline items) names start).Nodup := by
  rw [callEnds_eq]
  have horder : InOrder ((around source (.ofOutline items) names start).foldl
      (fun found s => insertStatement s found) []) := inOrder_foldl_insertStatement .nil
  refine List.pairwise_filterMap.mpr (horder.imp_of_mem fun {a b} ha hb hlt stop hstop stop' hstop' => ?_)
  rintro rfl
  obtain ⟨-, hstop⟩ := callEnd?_eq_some_iff.mp hstop
  obtain ⟨-, hstop'⟩ := callEnd?_eq_some_iff.mp hstop'
  have ha := (mem_around (mem_collected.mp ha)).1
  have hb := (mem_around (mem_collected.mp hb)).1
  have := List.inj_on_of_nodup_map (nodup_stop h) ha hb (hstop.trans hstop'.symm)
  rw [this] at hlt
  exact Nat.lt_irrefl _ hlt

end Located

end CallSite

end DeferredLog
