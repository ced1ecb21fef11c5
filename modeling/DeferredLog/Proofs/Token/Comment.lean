import DeferredLog.Proofs.Token.Locality

/-!
# Comments

A gap that is over is a run of white space and whole comments (`Gap.Closed`). Behind it, and behind the
opening of a comment with what that holds, skipping goes on as if it had just started there: what a
comment holds has no say in where the gap ends.

* `Gap.skip_closed`, `Gap.skip_comment`.
-/

namespace DeferredLog

open Text (isLineBreak)

/-- The kinds of comments. -/
inductive CommentKind where
  /-- A comment up to the end of the line. -/
  | line
  /-- A comment up to its closing mark. -/
  | block
  deriving DecidableEq, Repr

namespace CommentKind

/-- The mark that opens a comment. -/
def opening : CommentKind → List Char
  | line => ['/', '/']
  | block => ['/', '*']

/-- Whether a comment can hold a text: one that does not end it. -/
def Holds : CommentKind → List Char → Prop
  | line, body => ∀ c ∈ body, isLineBreak c = false
  | block, body => ¬ ['*', '/'] <:+: body

/-- Whether a comment ends before a text. -/
def EndsBefore : CommentKind → List Char → Prop
  | line, rest => ∀ c ∈ rest.head?, isLineBreak c = true
  | block, rest => ['*', '/'] <+: rest

instance (kind : CommentKind) (body : List Char) : Decidable (kind.Holds body) :=
  match kind with
  | line => decidable_of_iff (body.all (!isLineBreak ·) = true) (by simp [Holds])
  | block => inferInstanceAs (Decidable (¬ ['*', '/'] <:+: body))

instance (kind : CommentKind) (rest : List Char) : Decidable (kind.EndsBefore rest) :=
  match kind with
  | line => decidable_of_iff (rest.head?.all isLineBreak = true) (by cases rest <;> simp [EndsBefore])
  | block => inferInstanceAs (Decidable (['*', '/'] <+: rest))

/-- What a gap is inside of behind the opening of a comment at an offset. -/
def mode : CommentKind → Nat → Gap.Mode
  | line, _ => .line
  | block, offset => .block offset

theorem like_mode (kind : CommentKind) (offset offset' : Nat) :
    (kind.mode offset).Like (kind.mode offset') := by
  cases kind <;> trivial

end CommentKind

namespace Gap

/-- White space and whole comments, the last of them closed. -/
inductive Closed : List Char → Prop
  | nil : Closed []
  | space {c gap} : isSpace c = true → Closed gap → Closed (c :: gap)
  | line {body c gap} : CommentKind.line.Holds body → isLineBreak c = true → Closed gap →
      Closed ('/' :: '/' :: (body ++ c :: gap))
  | block {body gap} : CommentKind.block.Holds body → Closed gap →
      Closed ('/' :: '*' :: (body ++ '*' :: '/' :: gap))

/-- The gap with more characters at its front. -/
def lead (front : List Char) (result : Except Fault (List Char × List Char)) :
    Except Fault (List Char × List Char) :=
  front.foldr grow result

@[simp]
theorem lead_nil (result : Except Fault (List Char × List Char)) : lead [] result = result := rfl

@[simp]
theorem lead_cons (c : Char) (front : List Char) (result : Except Fault (List Char × List Char)) :
    lead (c :: front) result = grow c (lead front result) := rfl

theorem lead_append (a b : List Char) (result : Except Fault (List Char × List Char)) :
    lead (a ++ b) result = lead a (lead b result) :=
  List.foldr_append

theorem lead_ok (front gap rest : List Char) :
    lead front (.ok (gap, rest)) = .ok (front ++ gap, rest) := by
  induction front with
  | nil => rfl
  | cons c front ih => rw [lead_cons, ih]; rfl

theorem lead_eq_ok {front gap rest : List Char} {result : Except Fault (List Char × List Char)}
    (h : lead front result = .ok (gap, rest)) :
    ∃ gap', gap = front ++ gap' ∧ result = .ok (gap', rest) := by
  induction front generalizing gap with
  | nil => exact ⟨gap, rfl, h⟩
  | cons c front ih =>
    obtain ⟨gap', rfl, hfront⟩ := grow_eq_ok h
    obtain ⟨gap'', rfl, hresult⟩ := ih hfront
    exact ⟨gap'', rfl, hresult⟩

/-! ## Comments -/

theorem skip_line {body : List Char} (h : CommentKind.line.Holds body) (offset : Nat)
    (rest : List Char) :
    skip .line offset (body ++ rest) = lead body (skip .line (offset + Text.size body) rest) := by
  induction body generalizing offset with
  | nil => rfl
  | cons c body ih =>
    rw [List.cons_append, skip, h c List.mem_cons_self, if_neg Bool.false_ne_true,
      ih fun d hd => h d (List.mem_cons_of_mem _ hd), lead_cons, Text.size_cons, Nat.add_assoc]

theorem skip_block {body : List Char} (h : CommentKind.block.Holds body) (opened offset : Nat)
    (rest : List Char) :
    skip (.block opened) offset (body ++ '*' :: '/' :: rest) =
      lead body (skip (.block opened) (offset + Text.size body) ('*' :: '/' :: rest)) := by
  induction body generalizing offset with
  | nil => rfl
  | cons c body ih =>
    have hbody : CommentKind.block.Holds body := fun hin => h (hin.trans (List.suffix_cons c body).isInfix)
    have hstep : skip (.block opened) offset (c :: (body ++ '*' :: '/' :: rest)) =
        grow c (skip (.block opened) (offset + c.utf8Size) (body ++ '*' :: '/' :: rest)) := by
      rw [skip]
      rintro more rfl hmore
      cases body with
      | nil => cases hmore
      | cons d body =>
        obtain ⟨rfl, -⟩ := List.cons.inj hmore
        exact h (List.IsPrefix.isInfix ⟨body, rfl⟩)
    rw [List.cons_append, hstep, ih hbody, lead_cons, Text.size_cons, Nat.add_assoc]

/-- What a comment holds has no say in where the gap ends. -/
theorem skip_comment {kind : CommentKind} {body rest : List Char} (h : kind.Holds body)
    (he : kind.EndsBefore rest) (offset : Nat) :
    skip .blank offset (kind.opening ++ (body ++ rest)) =
      lead (kind.opening ++ body)
        (skip (kind.mode offset) (offset + Text.size (kind.opening ++ body)) rest) := by
  have hopening : Text.size kind.opening = 2 := by cases kind <;> decide +kernel
  rw [lead_append, Text.size_append, hopening, ← Nat.add_assoc]
  cases kind with
  | line =>
    rw [CommentKind.opening, List.cons_append, List.cons_append, List.nil_append, skip, skip_line h]
    rfl
  | block =>
    obtain ⟨more, rfl⟩ := he
    rw [CommentKind.opening, List.cons_append, List.cons_append, List.nil_append, skip]
    exact congrArg _ (congrArg _ (skip_block h offset (offset + 2) more))

/-- Behind a gap that is over, skipping goes on as between comments. -/
theorem skip_closed {gap : List Char} (h : Closed gap) (offset : Nat) (rest : List Char) :
    skip .blank offset (gap ++ rest) = lead gap (skip .blank (offset + Text.size gap) rest) := by
  induction h generalizing offset with
  | nil => rfl
  | @space c gap hc _ ih =>
    have hslash : c ≠ '/' := by
      rintro rfl
      rw [not_isSpace_slash] at hc
      cases hc
    rw [List.cons_append, skip, if_pos hc, ih, lead_cons, Text.size_cons, Nat.add_assoc]
    all_goals
      rintro _ rfl
      exact absurd rfl hslash
  | @line body c gap hb hc _ ih =>
    have hends : CommentKind.line.EndsBefore (c :: (gap ++ rest)) := fun d hd => by
      cases hd
      exact hc
    have hcomment := skip_comment hb hends offset
    rw [CommentKind.opening, CommentKind.mode, skip, if_pos hc, ih] at hcomment
    have hsplit : '/' :: '/' :: (body ++ c :: gap) = ['/', '/'] ++ body ++ c :: gap := by simp
    rw [hsplit, lead_append, lead_cons, Text.size_append, Text.size_cons, ← Nat.add_assoc,
      ← Nat.add_assoc, ← hcomment]
    simp
  | @block body gap hb _ ih =>
    have hends : CommentKind.block.EndsBefore ('*' :: '/' :: (gap ++ rest)) := ⟨gap ++ rest, rfl⟩
    have hcomment := skip_comment hb hends offset
    rw [CommentKind.opening, CommentKind.mode, skip, ih] at hcomment
    have hsplit : '/' :: '*' :: (body ++ '*' :: '/' :: gap) =
        ['/', '*'] ++ body ++ '*' :: '/' :: gap := by simp
    have hclosing : Text.size ('*' :: '/' :: gap) = 2 + Text.size gap := by
      rw [Text.size_cons, Text.size_cons, ← Nat.add_assoc]
      rfl
    rw [hsplit, lead_append, lead_cons, lead_cons, Text.size_append, hclosing, ← Nat.add_assoc,
      ← Nat.add_assoc, ← hcomment]
    simp

end Gap

end DeferredLog
