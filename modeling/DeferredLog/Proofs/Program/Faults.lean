import DeferredLog.Proofs.Outline.Faults
import DeferredLog.Proofs.Token.Scans
import DeferredLog.Proofs.Tree.Grammar

/-!
# Where a text is no program

A text is read in three steps, and each of them can find a fault: the text of a token or a comment that breaks
off, delimiters that do not pair up, and a statement without one of its parts. The first step tells its faults
where a comment opens or a token would start, the others at an end of a token. All of these are boundaries
between characters.

* `Token.boundary_of_scan`, `Tree.exists_token_of_ofTokens`: the first two steps.
* `Program.boundary_of_parse`: a text that is no program has its fault at a boundary.
-/

namespace DeferredLog

/-! ## Gaps -/

namespace Gap

theorem grow_eq_error {c : Char} {result : Except Fault (List Char × List Char)} {fault : Fault}
    (h : grow c result = .error fault) : result = .error fault := by
  unfold grow at h
  split at h
  · cases h
  · exact h

/-- A gap that breaks off does so in a comment, and that is where its fault is: where the comment opens. -/
theorem exists_opening_of_skip {mode : Mode} {offset : Nat} {cs : List Char} {fault : Fault}
    (h : skip mode offset cs = .error fault) :
    mode = .block fault.offset ∨
      ∃ a b, cs = a ++ '/' :: '*' :: b ∧ offset + Text.size a = fault.offset := by
  have behind {c : Char} {cs : List Char} {offset : Nat} :
      (∃ a b, cs = a ++ '/' :: '*' :: b ∧ offset + c.utf8Size + Text.size a = fault.offset) →
        ∃ a b, c :: cs = a ++ '/' :: '*' :: b ∧ offset + Text.size a = fault.offset := by
    rintro ⟨a, b, rfl, hoffset⟩
    exact ⟨c :: a, b, rfl, by rw [← hoffset, Text.size_cons, Nat.add_assoc]⟩
  fun_induction skip mode offset cs with
  | case1 =>
    cases h
    exact .inl rfl
  | case2 => cases h
  | case3 offset cs ih =>
    have hinner := ih (grow_eq_error (grow_eq_error h))
    exact .inr (behind (behind (hinner.resolve_left (by simp))))
  | case4 offset cs ih =>
    rcases ih (grow_eq_error (grow_eq_error h)) with hmode | hinner
    · cases hmode
      exact .inr ⟨[], cs, rfl, rfl⟩
    · exact .inr (behind (behind hinner))
  | case5 offset c cs _ _ _ ih => exact .inr (behind ((ih (grow_eq_error h)).resolve_left (by simp)))
  | case6 => cases h
  | case7 offset c cs ih =>
    refine .inr (behind ((ih (grow_eq_error h)).resolve_left ?_))
    split <;> simp
  | case8 opened offset cs ih =>
    have hinner := ih (grow_eq_error (grow_eq_error h))
    exact .inr (behind (behind (hinner.resolve_left (by simp))))
  | case9 opened offset c cs _ ih => exact (ih (grow_eq_error h)).imp_right behind

end Gap

/-! ## Tokens -/

namespace Token

theorem boundary_of_scanFrom {context : Context} {offset : Nat} {cs : List Char} {fault : Fault}
    (h : scanFrom context offset cs = .error fault) :
    ∃ a b, cs = a ++ b ∧ offset + Text.size a = fault.offset := by
  induction hn : cs.length using Nat.strongRecOn generalizing context offset cs with
  | _ n ih =>
  subst hn
  unfold scanFrom at h
  split at h
  · rename_i hgap
    cases h
    obtain ⟨a, b, hcut, hsize⟩ := (Gap.exists_opening_of_skip hgap).resolve_left (by simp)
    exact ⟨a, _, hcut, hsize⟩
  · cases h
  · rename_i gap c rest hgap
    have hcs := Gap.skip_append hgap
    split at h
    · cases h
      exact ⟨gap, c :: rest, hcs.symm, rfl⟩
    · rename_i lexeme hread
      have hlt := rest_shorter hgap hread
      dsimp only at h
      split at h
      · rename_i htail
        cases h
        obtain ⟨a, b, hrest, hsize⟩ := ih _ hlt htail rfl
        obtain ⟨hlexeme, -⟩ := Lexeme.read_append hread
        refine ⟨gap ++ lexeme.text ++ a, b, ?_, ?_⟩
        · rw [← hcs, ← hlexeme, hrest]
          simp only [List.append_assoc]
        · rw [← hsize, stop_ofLexeme, Text.size_append, Text.size_append]
          omega
      · cases h

/-- A text without tokens has its fault at a boundary between two characters. -/
theorem boundary_of_scan {source : List Char} {fault : Fault} (h : scan source = .error fault) :
    ∃ a b, source = a ++ b ∧ Text.size a = fault.offset := by
  obtain ⟨a, b, hcut, hsize⟩ := boundary_of_scanFrom h
  refine ⟨(interpreterLine source).1 ++ a, b, ?_, by rw [Text.size_append, hsize]⟩
  rw [List.append_assoc, ← hcut, interpreterLine_append]

end Token

/-! ## Programs -/

namespace Program

variable {source : List Char} {fault : Fault}

theorem ofTrees_eq_error_iff {trees : List Tree} :
    ofTrees trees = .error fault ↔ Outline.body trees = .error fault := by
  rw [ofTrees]
  cases Outline.body trees <;> simp [Except.map]

/-- The steps in which a text can fail to be a program. -/
theorem parse_eq_error_iff : parse source = .error fault ↔
    Token.scan source = .error fault ∨ ∃ tokens, Token.scan source = .ok tokens ∧
      (Tree.ofTokens tokens = .error fault ∨
        ∃ trees, Tree.ofTokens tokens = .ok trees ∧ ofTrees trees = .error fault) := by
  unfold parse Tree.parse
  cases Token.scan source with
  | error => simp [Bind.bind, Except.bind]
  | ok tokens => cases htrees : Tree.ofTokens tokens <;> simp [Bind.bind, Except.bind, htrees]

/-- **A text that is no program has its fault at a boundary between two characters**, or at one of its
ends. -/
theorem boundary_of_parse (h : parse source = .error fault) :
    ∃ a b, source = a ++ b ∧ Text.size a = fault.offset := by
  rcases parse_eq_error_iff.mp h with hscan | ⟨tokens, hscan, htrees | ⟨trees, htrees, hprogram⟩⟩
  · exact Token.boundary_of_scan hscan
  · obtain ⟨token, hm, hstart⟩ := Tree.exists_token_of_ofTokens htrees
    obtain ⟨a, b, hcut, hsize⟩ := Token.token_at hscan hm
    exact ⟨a, _, hcut, hsize.trans hstart⟩
  · obtain ⟨token, hm, hend⟩ := Outline.fault_of_body (ofTrees_eq_error_iff.mp hprogram)
    rw [Tree.ofTokens_flatten htrees] at hm
    rcases hend with hend | hend
    · obtain ⟨a, b, hcut, hsize⟩ := Token.token_at hscan hm
      exact ⟨a, _, hcut, hsize.trans hend.symm⟩
    · obtain ⟨a, b, hcut, hsize⟩ := Token.boundary_stop hscan hm
      exact ⟨a, b, hcut, hsize.trans hend.symm⟩

end Program

end DeferredLog
