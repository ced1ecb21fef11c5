import DeferredLog.Proofs.Core.Layout
import DeferredLog.Proofs.Token.LineBreak

/-!
# Tokens and gaps cover a text

Nothing of a text gets lost between its tokens. What stands before a token, between two tokens or behind the
last one is white space and comments, and at the start of the text a line that may name an interpreter; and a
token has a line break before it exactly if there is one in that gap, be it inside of a comment.

* `Gap.trailing_of_skip`: what stands at the end of a text. The last comment there may be one up to the end.
* `Token.Scans.exists_gap`: what stands before the first of some tokens.
* `Token.scan_covers`: the whole text.
-/

namespace DeferredLog

open Text (isLineBreak)

/-- Whether a text stands in another one between two byte offsets. Both are boundaries of characters then. -/
def Text.Between (source : List Char) (start stop : Nat) (text : List Char) : Prop :=
  ∃ a b, source = a ++ (text ++ b) ∧ Text.size a = start ∧ Text.size (a ++ text) = stop

/-! ## Gaps -/

namespace Gap

open DeferredLog.Core (Trailing)

theorem Closed.append {a b : List Char} (ha : Closed a) (hb : Closed b) : Closed (a ++ b) := by
  induction ha with
  | nil => exact hb
  | space hc _ ih => exact .space hc ih
  | line hbody hc _ ih =>
    rw [List.cons_append, List.cons_append, List.append_assoc]
    exact .line hbody hc ih
  | block hbody _ ih =>
    rw [List.cons_append, List.cons_append, List.append_assoc]
    exact .block hbody ih

/-- White space and whole comments can stand before what is at the end of a text. -/
theorem Closed.trailing_append {front gap : List Char} (hf : Closed front) (h : Trailing gap) :
    Trailing (front ++ gap) := by
  obtain ⟨more, hmore, rfl | ⟨body, hbody, rfl⟩⟩ := h
  · exact ⟨_, hf.append hmore, .inl rfl⟩
  · exact ⟨_, hf.append hmore, .inr ⟨body, hbody, (List.append_assoc ..).symm⟩⟩

/-- What is left of a text in a mode: the end of the comment, if it is inside one, and then white space and
comments. A comment up to the end of the line may be one up to the end of the text. -/
def Mode.Trails : Mode → List Char → Prop
  | .blank, gap => Trailing gap
  | .line, gap => CommentKind.line.Holds gap ∨ ∃ body c more, gap = body ++ c :: more ∧
      CommentKind.line.Holds body ∧ isLineBreak c = true ∧ Trailing more
  | .block _, gap => ∃ body more, gap = body ++ '*' :: '/' :: more ∧ CommentKind.block.Holds body ∧
      Trailing more

/-- The comment behind which a text ends, or the one that is closed in it. -/
theorem trailing_line {gap : List Char} (h : Mode.line.Trails gap) : Trailing ('/' :: '/' :: gap) := by
  rcases h with hbody | ⟨body, c, more, rfl, hbody, hc, hmore⟩
  · exact ⟨[], .nil, .inr ⟨gap, hbody, rfl⟩⟩
  · have hline : Closed ('/' :: '/' :: (body ++ [c])) := .line hbody hc .nil
    simpa using hline.trailing_append hmore

theorem trailing_block {opened : Nat} {gap : List Char} (h : (Mode.block opened).Trails gap) :
    Trailing ('/' :: '*' :: gap) := by
  obtain ⟨body, more, rfl, hbody, hmore⟩ := h
  have hblock : Closed ('/' :: '*' :: (body ++ ['*', '/'])) := .block hbody .nil
  simpa using hblock.trailing_append hmore

theorem trails_of_skip {mode : Mode} {offset : Nat} {cs gap : List Char}
    (h : skip mode offset cs = .ok (gap, [])) : mode.Trails gap := by
  fun_induction skip mode offset cs generalizing gap with
  | case1 => cases h
  | case2 mode offset hne =>
    cases h
    cases mode with
    | blank => exact ⟨[], .nil, .inl rfl⟩
    | line => exact .inl (List.forall_mem_nil _)
    | block opened => exact absurd rfl (hne opened)
  | case3 offset cs ih =>
    obtain ⟨_, rfl, h₁⟩ := grow_eq_ok h
    obtain ⟨_, rfl, h₂⟩ := grow_eq_ok h₁
    exact trailing_line (ih h₂)
  | case4 offset cs ih =>
    obtain ⟨_, rfl, h₁⟩ := grow_eq_ok h
    obtain ⟨_, rfl, h₂⟩ := grow_eq_ok h₁
    exact trailing_block (ih h₂)
  | case5 offset c cs _ _ hc ih =>
    obtain ⟨_, rfl, h₁⟩ := grow_eq_ok h
    have hspace : Closed [c] := .space hc .nil
    exact hspace.trailing_append (ih h₁)
  | case6 => cases h
  | case7 offset c cs ih =>
    obtain ⟨_, rfl, h₁⟩ := grow_eq_ok h
    by_cases hc : isLineBreak c = true
    · have hmore := ih h₁
      rw [if_pos hc] at hmore
      exact .inr ⟨[], c, _, rfl, List.forall_mem_nil _, hc, hmore⟩
    · have hrest := ih h₁
      rw [if_neg hc] at hrest
      have hplain : isLineBreak c = false := Bool.not_eq_true _ ▸ hc
      rcases hrest with hbody | ⟨body, d, more, rfl, hbody, hd, hmore⟩
      · exact .inl (List.forall_mem_cons.mpr ⟨hplain, hbody⟩)
      · exact .inr ⟨c :: body, d, more, rfl, List.forall_mem_cons.mpr ⟨hplain, hbody⟩, hd, hmore⟩
  | case8 opened offset cs ih =>
    obtain ⟨_, rfl, h₁⟩ := grow_eq_ok h
    obtain ⟨more, rfl, h₂⟩ := grow_eq_ok h₁
    exact ⟨[], more, rfl, by simp [CommentKind.Holds], ih h₂⟩
  | case9 opened offset c cs hne ih =>
    obtain ⟨_, rfl, h₁⟩ := grow_eq_ok h
    obtain ⟨body, more, rfl, hbody, hmore⟩ := ih h₁
    refine ⟨c :: body, more, rfl, holds_block_cons hbody ?_, hmore⟩
    -- A star with a slash behind it would have ended the comment here.
    rintro back rfl rfl
    exact hne _ rfl (by simpa using (skip_append h₁).symm)

/-- What stands at the end of a text is white space and comments. -/
theorem trailing_of_skip {offset : Nat} {cs gap : List Char}
    (h : skip .blank offset cs = .ok (gap, [])) : Trailing gap :=
  trails_of_skip h

/-- What can stand between tokens, or `last` behind them all: white space and comments. -/
def Fills (last : Prop) (gap : List Char) : Prop :=
  Closed gap ∨ last ∧ Trailing gap

/-- What can stand before a token or `last` behind them all, and `first` before them all: white space and
comments, at the start of the text behind a line that may name an interpreter. -/
def Stands (first last : Prop) (gap : List Char) : Prop :=
  Fills last gap ∨ first ∧ ∃ body blank, gap = '#' :: '!' :: (body ++ blank) ∧
    CommentKind.line.Holds body ∧ CommentKind.line.EndsBefore blank ∧ (blank = [] → last) ∧ Fills last blank

end Gap

namespace Token

/-- Where the first of some tokens starts, or the text that they stand in ends. -/
def startOf (size : Nat) (tokens : List Token) : Nat :=
  (tokens.head?.map start).getD size

variable {context : Context} {offset : Nat} {cs : List Char} {tokens : List Token}

/-- What stands before the first of some tokens, or in a text without tokens. -/
theorem Scans.exists_gap (h : Scans context offset cs tokens) : ∃ gap rest, cs = gap ++ rest ∧
    offset + Text.size gap = startOf (offset + Text.size cs) tokens ∧ Gap.Fills (tokens = []) gap ∧
      ∀ token ∈ tokens.head?, token.newlineBefore = gap.any isLineBreak := by
  cases h with
  | done hgap =>
    exact ⟨cs, [], (List.append_nil cs).symm, rfl, .inr ⟨rfl, Gap.trailing_of_skip hgap⟩, nofun⟩
  | @token _ _ gap c more kind rest tokens hgap =>
    refine ⟨gap, c :: more ++ rest, rfl, rfl, .inl (Gap.closed_of_skip hgap (by simp)), ?_⟩
    rintro token htoken
    cases htoken
    rfl

/-- A text that names an interpreter does so on its first line. -/
theorem interpreterLine_holds {source : List Char} (h : (interpreterLine source).1 ≠ []) :
    ∃ body, (interpreterLine source).1 = '#' :: '!' :: body ∧ CommentKind.line.Holds body ∧
      CommentKind.line.EndsBefore (interpreterLine source).2 := by
  have hends : CommentKind.line.EndsBefore (interpreterLine source).2 := fun c hc => by
    have hbreak := interpreterLine_rest h
    rw [Option.mem_def.mp hc, Option.any_some, Bool.not_eq_false'] at hbreak
    exact hbreak
  obtain ⟨more, rfl⟩ : ['#', '!'] <+: source := by
    rwa [ne_eq, interpreterLine_eq_nil_iff, not_not] at h
  refine ⟨more.takeWhile (!isLineBreak ·), rfl, fun c hc => ?_, hends⟩
  simpa using List.all_eq_true.mp List.all_takeWhile c hc

theorem endOf_of_ne_nil (h : tokens ≠ []) (offset offset' : Nat) : endOf offset tokens = endOf offset' tokens := by
  cases tokens with
  | nil => exact absurd rfl h
  | cons token tokens => rw [endOf_cons, endOf_cons]

/-- The gap at the start of a text, with the line that may name an interpreter. -/
theorem exists_first_gap {source : List Char} (h : scan source = .ok tokens) : ∃ gap,
    Text.Between source 0 (startOf (Text.size source) tokens) gap ∧ Gap.Stands True (tokens = []) gap ∧
      ∀ token ∈ tokens.head?, token.newlineBefore = gap.any isLineBreak := by
  have hsource := interpreterLine_append source
  have hscans := Scans.iff.mpr h
  obtain ⟨gap, rest, hcs, hstart, hfills, hnewline⟩ := hscans.exists_gap
  have hbetween : Text.Between source 0 (startOf (Text.size source) tokens)
      ((interpreterLine source).1 ++ gap) := by
    refine ⟨[], rest, ?_, rfl, ?_⟩
    · rw [List.nil_append, List.append_assoc, ← hcs, hsource]
    · rw [List.nil_append, Text.size_append, hstart, ← Text.size_append, hsource]
  by_cases hline : (interpreterLine source).1 = []
  · rw [hline, List.nil_append] at hbetween
    exact ⟨gap, hbetween, .inl hfills, hnewline⟩
  · obtain ⟨body, hbody, hholds, hends⟩ := interpreterLine_holds hline
    refine ⟨_, hbetween, .inr ⟨trivial, body, gap, by rw [hbody]; rfl, hholds, ?_, ?_, hfills⟩, ?_⟩
    · intro c hc
      refine hends c ?_
      rw [hcs, List.head?_append, Option.mem_def.mp hc, Option.some_or]
      rfl
    · rintro rfl
      by_contra hne
      obtain ⟨token, more, rfl⟩ := List.exists_cons_of_ne_nil hne
      exact absurd hstart (Nat.ne_of_lt (hscans.lt_start hends token List.mem_cons_self))
    · have hplain : (interpreterLine source).1.any isLineBreak = false := by
        rw [hbody, List.any_cons, List.any_cons, hholds.not_isLineBreak]
        decide
      simpa [List.any_append, hplain] using hnewline

/-- **Tokens and gaps cover a text.** Tokens are not empty, stand on boundaries of characters one behind the
other, and are what the text has there. Before the first of them, between two of them and behind the last one
there are only white space and comments, at the start of the text behind a line that may name an interpreter;
and a token has a line break before it exactly if the gap before it has one. -/
theorem scan_covers {source : List Char} (h : scan source = .ok tokens) :
    Ordered tokens ∧
      (∀ token ∈ tokens, Text.Between source token.start token.stop token.text.toList) ∧
      ∀ front back, tokens = front ++ back → ∃ gap,
        Text.Between source (endOf 0 front) (startOf (Text.size source) back) gap ∧
        Gap.Stands (front = []) (back = []) gap ∧
        ∀ token ∈ back.head?, (token.newlineBefore = true ↔ ∃ c ∈ gap, isLineBreak c = true) := by
  refine ⟨(Scans.iff.mpr h).ordered, fun token ht => ?_, fun front back hcut => ?_⟩
  · obtain ⟨a, b, hab, hsize⟩ := token_at h ht
    have hstop : token.start ≤ token.stop := Nat.le_add_right ..
    refine ⟨a, b, hab, hsize, ?_⟩
    rw [Text.size_append, hsize, size_text]
    omega
  · suffices hgap : ∃ gap, Text.Between source (endOf 0 front) (startOf (Text.size source) back) gap ∧
        Gap.Stands (front = []) (back = []) gap ∧
        ∀ token ∈ back.head?, token.newlineBefore = gap.any isLineBreak by
      obtain ⟨gap, hbetween, hstands, hnewline⟩ := hgap
      refine ⟨gap, hbetween, hstands, fun token ht => ?_⟩
      rw [hnewline token ht, List.any_eq_true]
    subst hcut
    by_cases hfront : front = []
    · subst hfront
      simpa using exists_first_gap h
    · obtain ⟨w, r, rfl, hw, hscans, -⟩ := scan_split h
      rw [endOf_of_ne_nil hfront _ 0] at hw
      obtain ⟨gap, rest, rfl, hstart, hfills, hnewline⟩ := hscans.exists_gap
      refine ⟨gap, ⟨w, rest, rfl, hw, ?_⟩, .inl hfills, hnewline⟩
      rw [Text.size_append, hstart, ← Text.size_append]

/-- Two names behind a line that names an interpreter, with comments between them and behind. -/
def sampleText : List Char :=
  "#!x\n a//c\n/*\u2028*/b //d".toList

theorem scan_covers_sample : scan sampleText = .ok [⟨.ident, "a", 5, true⟩, ⟨.ident, "b", 17, true⟩] ∧
    ∃ gap, Text.Between sampleText 6 17 gap ∧
      Gap.Stands ([⟨.ident, "a", 5, true⟩] = ([] : List Token)) ([⟨.ident, "b", 17, true⟩] = ([] : List Token)) gap ∧
      ∃ c ∈ gap, isLineBreak c = true := by
  have hscan : scan sampleText = .ok [⟨.ident, "a", 5, true⟩, ⟨.ident, "b", 17, true⟩] := by
    decide +kernel
  obtain ⟨-, -, hgaps⟩ := scan_covers hscan
  obtain ⟨gap, hbetween, hstands, hnewline⟩ := hgaps [⟨.ident, "a", 5, true⟩] [⟨.ident, "b", 17, true⟩] rfl
  exact ⟨hscan, gap, hbetween, hstands, (hnewline _ rfl).mp rfl⟩

end Token

end DeferredLog
