import DeferredLog.Fault
import DeferredLog.Text.Blank
import DeferredLog.Text.Size

/-!
# Gaps between tokens

Between two tokens stand white space and comments. `Gap.skip` splits the gap off the front of a
text; it fails at a block comment that is never closed.

* `Gap.skip_append`: nothing is lost.
-/

namespace DeferredLog

namespace Gap

/-- What a gap is inside of. -/
inductive Mode where
  /-- Between comments. -/
  | blank
  /-- A comment up to the end of the line. -/
  | line
  /-- A comment up to its closing mark, opened at the given offset. -/
  | block (opened : Nat)
  deriving DecidableEq, Repr

/-- Whether a character stands for itself in a gap: white space or a byte order mark. -/
def isSpace (c : Char) : Bool :=
  Text.isBlank c || c = '\ufeff'

/-- A character before the rest of a gap. -/
def grow (c : Char) (result : Except Fault (List Char × List Char)) :
    Except Fault (List Char × List Char) :=
  match result with
  | .ok (gap, rest) => .ok (c :: gap, rest)
  | .error fault => .error fault

/-- The gap at the front of a text that starts at `offset`, and the text behind it. -/
def skip : Mode → Nat → List Char → Except Fault (List Char × List Char)
  | .block opened, _, [] => .error ⟨.unterminatedComment, opened⟩
  | _, _, [] => .ok ([], [])
  | .blank, offset, '/' :: '/' :: cs => grow '/' (grow '/' (skip .line (offset + 2) cs))
  | .blank, offset, '/' :: '*' :: cs => grow '/' (grow '*' (skip (.block offset) (offset + 2) cs))
  | .blank, offset, c :: cs =>
    if isSpace c then grow c (skip .blank (offset + c.utf8Size) cs) else .ok ([], c :: cs)
  | .line, offset, c :: cs =>
    grow c (skip (if Text.isLineBreak c then .blank else .line) (offset + c.utf8Size) cs)
  | .block _, offset, '*' :: '/' :: cs => grow '*' (grow '/' (skip .blank (offset + 2) cs))
  | .block opened, offset, c :: cs => grow c (skip (.block opened) (offset + c.utf8Size) cs)

theorem grow_eq_ok {c : Char} {result : Except Fault (List Char × List Char)}
    {gap rest : List Char} (h : grow c result = .ok (gap, rest)) :
    ∃ gap', gap = c :: gap' ∧ result = .ok (gap', rest) := by
  unfold grow at h
  split at h
  · simp only [Except.ok.injEq, Prod.mk.injEq] at h
    obtain ⟨rfl, rfl⟩ := h
    exact ⟨_, rfl, rfl⟩
  · cases h

/-- The gap and the text behind it make up the text. -/
theorem skip_append {mode : Mode} {offset : Nat} {cs gap rest : List Char}
    (h : skip mode offset cs = .ok (gap, rest)) : gap ++ rest = cs := by
  fun_induction skip mode offset cs generalizing gap rest with
  | case1 => cases h
  | case2 =>
    simp only [Except.ok.injEq, Prod.mk.injEq] at h
    obtain ⟨rfl, rfl⟩ := h
    rfl
  | case3 offset cs ih | case4 offset cs ih =>
    obtain ⟨_, rfl, h₁⟩ := grow_eq_ok h
    obtain ⟨_, rfl, h₂⟩ := grow_eq_ok h₁
    simp [ih h₂]
  | case5 offset c cs _ _ hc ih =>
    obtain ⟨_, rfl, h₁⟩ := grow_eq_ok h
    simp [ih h₁]
  | case6 =>
    simp only [Except.ok.injEq, Prod.mk.injEq] at h
    obtain ⟨rfl, rfl⟩ := h
    rfl
  | case7 offset c cs ih =>
    obtain ⟨_, rfl, h₁⟩ := grow_eq_ok h
    simp [ih h₁]
  | case8 opened offset cs ih =>
    obtain ⟨_, rfl, h₁⟩ := grow_eq_ok h
    obtain ⟨_, rfl, h₂⟩ := grow_eq_ok h₁
    simp [ih h₂]
  | case9 opened offset c cs _ ih =>
    obtain ⟨_, rfl, h₁⟩ := grow_eq_ok h
    simp [ih h₁]

end Gap

end DeferredLog
