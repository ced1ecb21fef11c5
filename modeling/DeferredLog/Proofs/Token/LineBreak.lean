import DeferredLog.Proofs.Token.Edit

/-!
# A line break before a brace

In front of an opening brace a line break can stand, with indentation behind it: every token is read as
before. Those in front stay where they are, the brace and those behind it move, and only the brace has a line
break before it that may not have been there.

* `Gap.closed_of_skip`: what stands before a token is white space and whole comments.
* `Token.scan_breakBefore`: the tokens of such a text.
-/

namespace DeferredLog

open Text (isLineBreak)

/-! ## Gaps before a token -/

namespace Gap

/-- What is left of a gap in a mode is closed: the end of the comment, if it is inside one, and then white
space and whole comments. -/
def Mode.Closes : Mode → List Char → Prop
  | .blank, gap => Closed gap
  | .line, gap => ∃ body c more, gap = body ++ c :: more ∧ CommentKind.line.Holds body ∧
      isLineBreak c = true ∧ Closed more
  | .block _, gap => ∃ body more, gap = body ++ '*' :: '/' :: more ∧ CommentKind.block.Holds body ∧
      Closed more

theorem holds_block_cons {c : Char} {body : List Char} (h : CommentKind.block.Holds body)
    (hc : ∀ more, c = '*' → body = '/' :: more → False) : CommentKind.block.Holds (c :: body) := by
  intro hin
  rcases List.infix_cons_iff.mp hin with hpre | hin
  · obtain ⟨more, hmore⟩ := hpre
    obtain ⟨rfl, rfl⟩ := List.cons.inj hmore
    exact hc more rfl rfl
  · exact h hin

theorem closes_of_skip {mode : Mode} {offset : Nat} {cs gap rest : List Char}
    (h : skip mode offset cs = .ok (gap, rest)) (hr : rest ≠ []) : mode.Closes gap := by
  fun_induction skip mode offset cs generalizing gap rest with
  | case1 => cases h
  | case2 =>
    cases h
    exact absurd rfl hr
  | case3 offset cs ih =>
    obtain ⟨_, rfl, h₁⟩ := grow_eq_ok h
    obtain ⟨_, rfl, h₂⟩ := grow_eq_ok h₁
    obtain ⟨body, c, more, rfl, hbody, hc, hmore⟩ := ih h₂ hr
    exact .line hbody hc hmore
  | case4 offset cs ih =>
    obtain ⟨_, rfl, h₁⟩ := grow_eq_ok h
    obtain ⟨_, rfl, h₂⟩ := grow_eq_ok h₁
    obtain ⟨body, more, rfl, hbody, hmore⟩ := ih h₂ hr
    exact .block hbody hmore
  | case5 offset c cs _ _ hc ih =>
    obtain ⟨_, rfl, h₁⟩ := grow_eq_ok h
    exact .space hc (ih h₁ hr)
  | case6 =>
    cases h
    exact .nil
  | case7 offset c cs ih =>
    obtain ⟨_, rfl, h₁⟩ := grow_eq_ok h
    by_cases hc : isLineBreak c = true
    · have hmore := ih h₁ hr
      rw [if_pos hc] at hmore
      exact ⟨[], c, _, rfl, List.forall_mem_nil _, hc, hmore⟩
    · have hrest := ih h₁ hr
      rw [if_neg hc] at hrest
      obtain ⟨body, d, more, rfl, hbody, hd, hmore⟩ := hrest
      exact ⟨c :: body, d, more, rfl, List.forall_mem_cons.mpr ⟨Bool.not_eq_true _ ▸ hc, hbody⟩, hd, hmore⟩
  | case8 opened offset cs ih =>
    obtain ⟨_, rfl, h₁⟩ := grow_eq_ok h
    obtain ⟨more, rfl, h₂⟩ := grow_eq_ok h₁
    exact ⟨[], more, rfl, by simp [CommentKind.Holds], ih h₂ hr⟩
  | case9 opened offset c cs hne ih =>
    obtain ⟨_, rfl, h₁⟩ := grow_eq_ok h
    obtain ⟨body, more, rfl, hbody, hmore⟩ := ih h₁ hr
    refine ⟨c :: body, more, rfl, holds_block_cons hbody ?_, hmore⟩
    rintro back rfl rfl
    exact hne _ rfl (skip_append h₁).symm

/-- What stands before a token is white space and whole comments. -/
theorem closed_of_skip {offset : Nat} {cs gap rest : List Char}
    (h : skip .blank offset cs = .ok (gap, rest)) (hr : rest ≠ []) : Closed gap :=
  closes_of_skip h hr

theorem closed_of_isBlank {w : List Char} (hw : ∀ d ∈ w, Text.isBlank d = true) : Closed w := by
  induction w with
  | nil => exact .nil
  | cons d w ih =>
    obtain ⟨hd, hw⟩ := List.forall_mem_cons.mp hw
    exact .space (by simp [isSpace, hd]) (ih hw)

/-- A gap goes on with white space. -/
theorem skip_blank {offset : Nat} {cs gap rest w : List Char} (h : skip .blank offset cs = .ok (gap, rest))
    (hr : rest ≠ []) (hends : EndsBefore rest) (hw : ∀ d ∈ w, Text.isBlank d = true) :
    skip .blank offset (gap ++ w ++ rest) = .ok (gap ++ w, rest) := by
  rw [List.append_assoc, skip_closed (closed_of_skip h hr), skip_closed (closed_of_isBlank hw), hends, lead_ok,
    lead_ok, List.append_nil]

end Gap

/-! ## Tokens -/

namespace Token

/-- What a token becomes if a line break, with indentation, of some size is put before the brace at an
offset. -/
def breakBefore (offset size : Nat) (token : Token) : Token where
  kind := token.kind
  text := token.text
  start := if token.start < offset then token.start else token.start + size
  newlineBefore := token.newlineBefore || (token.kind = .openBrace && token.start = offset)

variable {offset size : Nat} {token o : Token} {tokens a b : List Token}

theorem breakBefore_of_lt (h : token.start < offset) : token.breakBefore offset size = token := by
  have hne : token.start ≠ offset := Nat.ne_of_lt h
  simp [breakBefore, h, hne]

theorem breakBefore_of_gt (h : offset < token.start) :
    token.breakBefore offset size = { token with start := token.start + size } := by
  have hne : token.start ≠ offset := Nat.ne_of_gt h
  simp [breakBefore, Nat.not_lt.mpr (Nat.le_of_lt h), hne]

/-- The text behind the brace has its tokens where they move. -/
theorem Scans.behind_brace {context : Context} {cs : List Char} (h : Scans context offset cs tokens)
    {brace : Nat} (hlt : brace < offset) (size : Nat) :
    Scans context (offset + size) cs (tokens.map (breakBefore brace size)) := by
  have hmoved : tokens.map (breakBefore brace size) = tokens.map fun token =>
      { token with start := token.start - offset + (offset + size) } :=
    List.map_congr_left fun token ht => by
      have hle := h.start_le token ht
      have hstart : token.start + size = token.start - offset + (offset + size) := by omega
      rw [breakBefore_of_gt (by omega), hstart]
  rw [hmoved]
  exact h.elsewhere _

/-- **A line break can stand before a brace**, with indentation. The tokens are the same, but for the line
break before the brace, and from the brace on they move. -/
theorem scan_breakBefore {source front back w : List Char} {c : Char} (h : scan source = .ok (a ++ o :: b))
    (hk : o.kind = .openBrace) (hsource : source = front ++ back) (hfront : Text.size front = o.start)
    (hc : isLineBreak c = true) (hw : ∀ d ∈ w, Text.isBlank d = true) :
    scan (front ++ c :: w ++ back) = .ok ((a ++ o :: b).map (breakBefore o.start (Text.size (c :: w)))) := by
  have hordered : Ordered (a ++ o :: b) := (Scans.iff.mpr h).ordered
  have ha : a.map (breakBefore o.start (Text.size (c :: w))) = a := by
    refine (List.map_congr_left fun token ht => ?_).trans (List.map_id a)
    have := hordered.between ht List.mem_cons_self
    have := hordered.left.nonempty token ht
    exact breakBefore_of_lt (by omega)
  obtain ⟨v, r, rfl, -, hscan, hback⟩ := scan_split h
  cases hscan with
  | @token _ _ gap d more kind rest _ hgap hread hscan =>
  obtain rfl : kind = .openBrace := hk
  obtain ⟨rfl, hmore⟩ := read_delimiter (d := '\x7b') hread rfl
  obtain rfl : more = [] := (List.cons.inj hmore).2
  obtain ⟨rfl, rfl⟩ : front = v ++ gap ∧ back = '\x7b' :: rest := by
    refine Text.append_inj_of_size (hsource.symm.trans ?_) ?_
    · simp
    · rw [hfront, Text.size_append]
      rfl
  have hends : Gap.EndsBefore ('\x7b' :: rest) :=
    Gap.endsBefore_cons_iff.mpr ⟨by decide +kernel, fun h => absurd h (by decide)⟩
  have hspace : ∀ d ∈ c :: w, Text.isBlank d = true :=
    List.forall_mem_cons.mpr ⟨Text.isBlank_of_isLineBreak hc, hw⟩
  have hgap' : Gap.skip .blank (Text.size v) (gap ++ c :: w ++ (['\x7b'] ++ rest)) =
      .ok (gap ++ c :: w, ['\x7b'] ++ rest) :=
    Gap.skip_blank hgap (by simp) hends hspace
  -- The brace itself.
  have hfirst : breakBefore (Text.size v + Text.size gap) (Text.size (c :: w))
      (ofLexeme (Text.size v) gap ⟨.openBrace, ['\x7b'], rest⟩) =
        ofLexeme (Text.size v) (gap ++ c :: w) ⟨.openBrace, ['\x7b'], rest⟩ := by
    simp [breakBefore, ofLexeme, hc, Text.size_append, Nat.add_assoc]
  have hone : Text.size ['\x7b'] = 1 := by decide
  have htail := hscan.behind_brace (Nat.lt_add_of_pos_right (by rw [hone]; exact Nat.one_pos))
    (Text.size (c :: w))
  have hoffset : Text.size v + Text.size gap + Text.size ['\x7b'] + Text.size (c :: w) =
      Text.size v + Text.size (gap ++ c :: w) + Text.size ['\x7b'] := by
    rw [Text.size_append]
    omega
  rw [hoffset] at htail
  have hstops : Lexeme.isStop '\x7b' = true ∧ Lexeme.isStop c = true := by
    refine ⟨by decide +kernel, ?_⟩
    have hno := Lexeme.of_isLineBreak (p := (!Lexeme.isStop ·)) (by decide +kernel) c hc
    rwa [Bool.not_eq_false'] at hno
  have hscans := Scans.token hgap' hread htail
  rw [List.append_assoc gap] at hscans
  have hall := hback _ _ (.append gap (.stop hstops.1 hstops.2)) (.append gap (.inr ⟨rfl, hc⟩))
    (Gap.head?_append_ne_hash hgap (by simp)) hscans
  rw [List.map_append, List.map_cons, ha, List.append_assoc v, List.append_assoc v, List.append_assoc gap]
  rw [← hfirst] at hall
  exact hall

end Token

end DeferredLog
