import Mathlib.Data.List.Induction
import Mathlib.Data.List.Nodup
import DeferredLog.Proofs.Program.Parses

/-!
# The family of statements

The expression statements of a program are numbered in the order of their starts, and of two of them one lies
strictly inside the other or they have no byte in common. So the statements around an offset lie one inside
the other, and the shortest of them is the one inside all others.

* `Program.enclosing?_eq_some_iff`, `Program.enclosing?_eq_none_iff`: the statement around an offset, in a
  family in which the later of two statements comes behind the earlier one or lies inside it.
* `Program.enclosing?_start`: a statement is the smallest one around its start.
* `Program.family_of_parse`: the statements of a program are such a family.
-/

namespace DeferredLog

open DeferredLog.Tree

/-! ## Spans -/

namespace Span

/-- Whether a span lies strictly between the ends of another. -/
def Inside (inner outer : Span) : Prop :=
  outer.start < inner.start ∧ inner.stop < outer.stop

/-- Whether one of two spans ends before the other starts. -/
def Separate (a b : Span) : Prop :=
  a.stop ≤ b.start ∨ b.stop ≤ a.start

theorem contains_iff {span : Span} {o : Nat} : span.contains o = true ↔ span.start ≤ o ∧ o < span.stop := by
  rw [contains, Bool.and_eq_true, decide_eq_true_eq, decide_eq_true_eq]

end Span

theorem Statement.span_contains_iff {s : Statement} {o : Nat} :
    s.span.contains o = true ↔ s.start ≤ o ∧ o < s.stop :=
  Span.contains_iff

namespace Program

variable {program : Program} {x y s : Statement} {o : Nat}

/-! ## The shortest of some statements -/

theorem foldl_shorter_mem (best : Option Statement) (xs : List Statement)
    (h : xs.foldl shorter best = some y) : best = some y ∨ y ∈ xs := by
  induction xs generalizing best with
  | nil => exact .inl h
  | cons s xs ih =>
    rcases ih _ h with h | h
    · unfold shorter at h
      split at h
      · exact .inr (Option.some.inj h ▸ List.mem_cons_self)
      · split at h
        · exact .inr (Option.some.inj h ▸ List.mem_cons_self)
        · exact .inl h
    · exact .inr (List.mem_cons_of_mem _ h)

/-- Of statements that get shorter and shorter the last one is the shortest. -/
theorem foldl_shorter_eq_getLast? {xs : List Statement}
    (h : xs.Pairwise fun x y => y.span.length < x.span.length) : xs.foldl shorter none = xs.getLast? := by
  induction xs using List.reverseRecOn with
  | nil => rfl
  | append_singleton xs x _ =>
    have hx : ∀ y ∈ xs, x.span.length < y.span.length := fun y hy =>
      (List.pairwise_append.mp h).2.2 y hy x (List.mem_singleton_self x)
    rw [List.foldl_append, List.getLast?_concat, List.foldl_cons, List.foldl_nil]
    cases hb : xs.foldl shorter none with
    | none => rfl
    | some best =>
      rcases foldl_shorter_mem none xs hb with hnone | hmem
      · cases hnone
      · rw [shorter, if_pos (hx best hmem)]

/-! ## Around an offset -/

/-- Whether a statement contains an offset and lies strictly inside every other one that does. -/
structure Innermost (program : Program) (o : Nat) (s : Statement) : Prop where
  /-- It is a statement of the program. -/
  mem : s ∈ program.statements.toList
  /-- It contains the offset. -/
  contains : s.span.contains o = true
  /-- All others around the offset are around it. -/
  inside : ∀ t ∈ program.statements.toList, t.span.contains o = true → t ≠ s → s.span.Inside t.span

theorem mem_of_enclosing? (h : program.enclosing? o = some x) :
    x ∈ program.statements.toList ∧ x.span.contains o = true := by
  rcases foldl_shorter_mem none _ h with h | h
  · cases h
  · exact List.mem_filter.mp h

section Apart

variable (hapart : program.trees.Pairwise Apart)

include hapart

theorem pairwise_apart :
    program.statements.toList.Pairwise fun x y => x.stop ≤ y.start ∨ y.span.Inside x.span :=
  List.pairwise_map.mp hapart

/-- The later of two statements around an offset lies inside the earlier one. -/
theorem pairwise_around (o : Nat) :
    (program.statements.toList.filter (·.span.contains o)).Pairwise fun x y => y.span.Inside x.span := by
  refine ((pairwise_apart hapart).filter _).imp_of_mem fun hx hy hxy => ?_
  obtain ⟨-, hx⟩ := Statement.span_contains_iff.mp (List.mem_filter.mp hx).2
  obtain ⟨hy, -⟩ := Statement.span_contains_iff.mp (List.mem_filter.mp hy).2
  exact hxy.resolve_left (by omega)

/-- The shortest statement around an offset is the last one. -/
theorem enclosing?_eq_getLast? (o : Nat) :
    program.enclosing? o = (program.statements.toList.filter (·.span.contains o)).getLast? := by
  refine foldl_shorter_eq_getLast? ((pairwise_around hapart o).imp_of_mem fun {x y} _ hy hxy => ?_)
  have hy := Statement.span_contains_iff.mp (List.mem_filter.mp hy).2
  obtain ⟨h₁, h₂⟩ : x.start < y.start ∧ y.stop < x.stop := hxy
  show y.stop - y.start < x.stop - x.start
  omega

/-- **The smallest statement around an offset** is the one strictly inside all others around it. -/
theorem enclosing?_eq_some_iff : program.enclosing? o = some s ↔ program.Innermost o s := by
  have haround := pairwise_around hapart o
  rw [enclosing?_eq_getLast? hapart]
  constructor
  · intro h
    obtain ⟨others, hothers⟩ := List.getLast?_eq_some_iff.mp h
    obtain ⟨hmem, hcontains⟩ := List.mem_filter.mp (hothers ▸ List.mem_concat_self)
    refine ⟨hmem, hcontains, fun t ht hc hne => ?_⟩
    have ht : t ∈ others ++ [s] := hothers ▸ List.mem_filter.mpr ⟨ht, hc⟩
    rw [hothers] at haround
    have ht : t ∈ others := (List.mem_append.mp ht).resolve_right (by simpa using hne)
    exact (List.pairwise_append.mp haround).2.2 t ht s (List.mem_singleton_self s)
  · intro h
    have hs : s ∈ program.statements.toList.filter (·.span.contains o) :=
      List.mem_filter.mpr ⟨h.mem, h.contains⟩
    obtain ⟨last, hlast⟩ := Option.ne_none_iff_exists'.mp
      (List.getLast?_eq_none_iff.not.mpr (List.ne_nil_of_mem hs))
    obtain ⟨others, hothers⟩ := List.getLast?_eq_some_iff.mp hlast
    rw [hlast]
    by_contra hne
    have hne : last ≠ s := fun he => hne (congrArg some he)
    obtain ⟨hmem, hcontains⟩ := List.mem_filter.mp (hothers ▸ List.mem_concat_self)
    -- The last one is inside `s` by its place, and around it because `s` is innermost.
    have hin : s.span.Inside last.span := h.inside last hmem hcontains hne
    have hs : s ∈ others := (List.mem_append.mp (hothers ▸ hs)).resolve_right (by simpa using hne.symm)
    rw [hothers] at haround
    have hout := (List.pairwise_append.mp haround).2.2 s hs last (List.mem_singleton_self last)
    exact absurd hin.1 (Nat.lt_asymm hout.1)

/-- **There is none exactly if no statement contains the offset.** -/
theorem enclosing?_eq_none_iff :
    program.enclosing? o = none ↔ ∀ s ∈ program.statements.toList, s.span.contains o = false := by
  rw [enclosing?_eq_getLast? hapart, List.getLast?_eq_none_iff, List.filter_eq_nil_iff]
  simp only [Bool.not_eq_true]

/-- Of two statements one comes behind the other or lies inside it. -/
theorem apart_or (hx : x ∈ program.statements.toList) (hy : y ∈ program.statements.toList) (hne : x ≠ y) :
    (x.stop ≤ y.start ∨ y.span.Inside x.span) ∨ (y.stop ≤ x.start ∨ x.span.Inside y.span) := by
  have hpairs := List.pairwise_iff_getElem.mp (pairwise_apart hapart)
  obtain ⟨i, hi, rfl⟩ := List.mem_iff_getElem.mp hx
  obtain ⟨j, hj, rfl⟩ := List.mem_iff_getElem.mp hy
  rcases Nat.lt_trichotomy i j with hlt | rfl | hlt
  · exact .inl (hpairs i j hi hj hlt)
  · exact absurd rfl hne
  · exact .inr (hpairs j i hj hi hlt)

/-- **A statement is the smallest one around its start.** -/
theorem enclosing?_start (hpos : ∀ y ∈ program.statements.toList, y.start < y.stop)
    (hx : x ∈ program.statements.toList) : program.enclosing? x.start = some x := by
  have hxpos := hpos x hx
  refine (enclosing?_eq_some_iff hapart).mpr
    ⟨hx, Statement.span_contains_iff.mpr ⟨Nat.le_refl _, hxpos⟩, fun t ht hc hne => ?_⟩
  obtain ⟨h₁, h₂⟩ := Statement.span_contains_iff.mp hc
  rcases apart_or hapart hx ht hne.symm with (h | h) | (h | h)
  · omega
  · have : x.start < t.start := h.1
    omega
  · omega
  · exact h

end Apart

/-! ## Programs -/

/-- What the statements of a program are, whose text has the given tokens. -/
structure Family (program : Program) (tokens : List Token) : Prop where
  /-- A statement has its place among them for a number. -/
  id_eq : ∀ (i : Nat) (s : Statement), program.statements[i]? = some s → s.id = i
  /-- Statements start in the order of their numbers. -/
  start_lt : ∀ x ∈ program.statements, ∀ y ∈ program.statements, x.id < y.id → x.start < y.start
  /-- Two of them have no byte in common, or one lies strictly inside the other. -/
  nested : ∀ x ∈ program.statements, ∀ y ∈ program.statements, x.id ≠ y.id →
    x.span.Separate y.span ∨ x.span.Inside y.span ∨ y.span.Inside x.span
  /-- A statement is a run of the tokens, which starts where its first token does and ends where its last one
  does. -/
  ends : ∀ s ∈ program.statements, flattenAll s.trees <:+: tokens ∧ ∃ first last,
    (flattenAll s.trees).head? = some first ∧ (flattenAll s.trees).getLast? = some last ∧
      s.span = ⟨first.start, last.stop⟩ ∧ first.start < last.stop
  /-- The smallest statement around an offset is the innermost one. -/
  enclosing : ∀ o s, program.enclosing? o = some s ↔ program.Innermost o s
  /-- Where there is none, no statement contains the offset. -/
  enclosing_none : ∀ o, program.enclosing? o = none ↔ ∀ s ∈ program.statements, s.span.contains o = false

/-- A statement of a program that is numbered in order has its place for a number. -/
theorem Numbered.id_eq (h : program.Numbered) {i : Nat} (hs : program.statements[i]? = some s) : s.id = i := by
  have hid := congrArg (·[i]?) h
  simp only [List.getElem?_map, Array.getElem?_toList, hs, Option.map_some] at hid
  obtain ⟨hlt, hid⟩ := List.getElem?_eq_some_iff.mp hid.symm
  exact hid.symm.trans (List.getElem_range hlt)

/-- Of the statements of a program no two have the same number. -/
theorem Numbered.inj (h : program.Numbered) (hx : x ∈ program.statements.toList)
    (hy : y ∈ program.statements.toList) (he : x.id = y.id) : x = y := by
  have hnodup : (program.statements.toList.map (·.id)).Nodup := h ▸ List.nodup_range
  exact List.inj_on_of_nodup_map hnodup hx hy he

/-- What holds of each earlier and later statement holds of those with a smaller and a greater number. -/
theorem Numbered.of_pairwise (h : program.Numbered) {r : Statement → Statement → Prop}
    (hr : program.statements.toList.Pairwise r) (hx : x ∈ program.statements) (hy : y ∈ program.statements)
    (hlt : x.id < y.id) : r x y := by
  obtain ⟨i, hi, rfl⟩ := Array.mem_iff_getElem.mp hx
  obtain ⟨j, hj, rfl⟩ := Array.mem_iff_getElem.mp hy
  rw [h.id_eq (Array.getElem?_eq_getElem hi), h.id_eq (Array.getElem?_eq_getElem hj)] at hlt
  exact List.pairwise_iff_getElem.mp hr i j (by simpa using hi) (by simpa using hj) hlt

/-- **The statements of a program are a nested family in order.** Their numbers are their places, their starts
grow with the numbers, two of them are apart or one is strictly inside the other, each is a run of tokens from
its first to its last one, and the smallest one around an offset is the innermost. -/
theorem family_of_parse {source : List Char} {program : Program} (h : parse source = .ok program) :
    ∃ tokens, Token.scan source = .ok tokens ∧ program.Family tokens := by
  obtain ⟨tokens, trees, items, -, hparses, rfl⟩ := Parses.exists_of_parse h
  have hnumbered := numbered_ofOutline items
  have hapart : (ofOutline items).trees.Pairwise Apart := by
    rw [trees_ofOutline]
    exact hparses.apart
  have hsited : ∀ s ∈ (ofOutline items).statements, Sited false [] tokens s.trees := fun s hs =>
    hparses.sited _ (trees_ofOutline items ▸ List.mem_map_of_mem hs.val)
  have hpos : ∀ s ∈ (ofOutline items).statements, s.start < s.stop := fun s hs =>
    ((hsited s hs).bounds hparses.ordered).2.2
  have hlater : ∀ x ∈ (ofOutline items).statements, ∀ y ∈ (ofOutline items).statements, x.id < y.id →
      x.stop ≤ y.start ∨ y.span.Inside x.span := fun x hx y hy hlt =>
    hnumbered.of_pairwise (pairwise_apart hapart) hx hy hlt
  refine ⟨tokens, hparses.scan, ?_⟩
  constructor
  case id_eq => exact fun i s hs => hnumbered.id_eq hs
  case start_lt =>
    intro x hx y hy hlt
    have := hpos x hx
    rcases hlater x hx y hy hlt with h | h
    · omega
    · exact h.1
  case nested =>
    intro x hx y hy hne
    rcases Nat.lt_or_gt_of_ne hne with hlt | hlt
    · exact (hlater x hx y hy hlt).imp .inl .inr
    · exact (hlater y hy x hx hlt).imp .inr .inl
  case ends =>
    intro s hs
    obtain ⟨hne, before, behind, htokens, -⟩ := hsited s hs
    obtain ⟨first, hfirst, hstart⟩ := head?_flattenAll hne
    obtain ⟨last, hlast, hstop⟩ := getLast?_flattenAll hne
    refine ⟨⟨before, behind, by rw [htokens, List.append_assoc]⟩, first, last, hfirst, hlast, ?_, ?_⟩
    · rw [hstart, hstop]
      rfl
    · rw [hstart, hstop]
      exact hpos s hs
  case enclosing => exact fun o s => enclosing?_eq_some_iff hapart
  case enclosing_none =>
    intro o
    simp only [enclosing?_eq_none_iff hapart, Array.mem_toList_iff]

/-- Statements in a function inside a statement, in an arrow function in an argument, and behind them. -/
theorem family_of_parse_functions : ∃ program tokens,
    parse "a(function () { b(); c(d => e()); }); f()".toList = .ok program ∧
      Token.scan "a(function () { b(); c(d => e()); }); f()".toList = .ok tokens ∧
      program.Family tokens ∧ (program.enclosing? 24).map (·.id) = some 2 := by
  have hread : (parse "a(function () { b(); c(d => e()); }); f()".toList).toOption.any (fun program =>
      (program.enclosing? 24).map (·.id) = some 2) = true := by
    decide +kernel
  obtain ⟨program, hp, hat⟩ := exists_of_any_toOption hread
  obtain ⟨tokens, hscan, hfamily⟩ := family_of_parse hp
  exact ⟨program, tokens, hp, hscan, hfamily, of_decide_eq_true hat⟩

end Program

end DeferredLog
