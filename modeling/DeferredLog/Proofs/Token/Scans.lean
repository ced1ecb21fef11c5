import DeferredLog.Token.Lexer

/-!
# Derivations of token lists

`Token.scanFrom` as an inductive relation: a text is a gap, a lexeme and the rest, in the context
that the lexeme leaves behind, until only a gap is left.

* `Scans.iff`: the tokens that are derived are those that are scanned.
* `Scans.ordered`: tokens are not empty, and stand in the order of their offsets.
* `Scans.boundary`: a name is not preceded by a character of names, unless a number directly before
  it ends in one.
-/

namespace DeferredLog

namespace Token

/-- `Scans context offset cs tokens`: the text `cs` at `offset` has these tokens. -/
inductive Scans : Context → Nat → List Char → List Token → Prop
  | done {context offset cs} : Gap.skip .blank offset cs = .ok (cs, []) →
      Scans context offset cs []
  | token {context offset gap c more kind rest tokens} :
      Gap.skip .blank offset (gap ++ (c :: more ++ rest)) = .ok (gap, c :: more ++ rest) →
      Lexeme.read context c (more ++ rest) = .ok ⟨kind, c :: more, rest⟩ →
      Scans (context.behind kind (String.ofList (c :: more)))
        (offset + Text.size gap + Text.size (c :: more)) rest tokens →
      Scans context offset (gap ++ (c :: more ++ rest))
        (ofLexeme offset gap ⟨kind, c :: more, rest⟩ :: tokens)

theorem Scans.scanFrom {context : Context} {offset : Nat} {cs : List Char} {tokens : List Token}
    (h : Scans context offset cs tokens) : scanFrom context offset cs = .ok tokens := by
  induction h with
  | done hgap =>
    unfold Token.scanFrom
    split
    · rename_i h
      cases hgap.symm.trans h
    · rfl
    · rename_i h
      cases hgap.symm.trans h
  | @token context offset gap c more kind rest tokens hgap hread _ ih =>
    unfold Token.scanFrom
    split
    · rename_i h
      cases hgap.symm.trans h
    · rename_i h
      cases hgap.symm.trans h
    · rename_i h
      cases hgap.symm.trans h
      split
      · rename_i h
        cases hread.symm.trans h
      · rename_i h
        cases hread.symm.trans h
        simp only [stop_ofLexeme]
        rw [show (ofLexeme offset gap ⟨kind, c :: more, rest⟩).kind = kind from rfl,
          show (ofLexeme offset gap ⟨kind, c :: more, rest⟩).text = String.ofList (c :: more) from rfl,
          ih]

theorem Scans.of_scanFrom {context : Context} {offset : Nat} {cs : List Char} {tokens : List Token}
    (h : Token.scanFrom context offset cs = .ok tokens) : Scans context offset cs tokens := by
  induction hn : cs.length using Nat.strongRecOn generalizing context offset cs tokens with
  | _ n ih =>
  subst hn
  unfold Token.scanFrom at h
  split at h
  · cases h
  · rename_i gap hgap
    cases h
    have hcs := Gap.skip_append hgap
    rw [List.append_nil] at hcs
    subst hcs
    exact .done hgap
  · rename_i gap c rest hgap
    split at h
    · cases h
    · rename_i lexeme hread
      have hlt := rest_shorter hgap hread
      dsimp only at h
      split at h
      · cases h
      · rename_i tokens htokens
        cases h
        have htail := ih _ hlt htokens rfl
        rw [stop_ofLexeme] at htail
        obtain ⟨happ, hne⟩ := Lexeme.read_append hread
        have hcs := Gap.skip_append hgap
        obtain ⟨kind, text, rest'⟩ := lexeme
        cases text with
        | nil => exact absurd rfl hne
        | cons d more =>
          obtain ⟨rfl, rfl⟩ := List.cons.inj happ
          subst hcs
          exact .token hgap hread htail

/-- The tokens that are derived are those that are scanned. -/
theorem Scans.iff {context : Context} {offset : Nat} {cs : List Char} {tokens : List Token} :
    Scans context offset cs tokens ↔ Token.scanFrom context offset cs = .ok tokens :=
  ⟨Scans.scanFrom, Scans.of_scanFrom⟩

/-! ## Order -/

/-- Tokens that are not empty and stand one behind the other. -/
structure Ordered (tokens : List Token) : Prop where
  /-- No token is empty. -/
  nonempty : ∀ token ∈ tokens, token.start < token.stop
  /-- A token ends before the next one starts. -/
  sorted : tokens.Pairwise fun token next => token.stop ≤ next.start

namespace Ordered

variable {a b tokens : List Token} {token : Token}

theorem sublist (h : Ordered b) (hs : a.Sublist b) : Ordered a :=
  ⟨fun t ht => h.nonempty t (hs.subset ht), h.sorted.sublist hs⟩

theorem left (h : Ordered (a ++ b)) : Ordered a :=
  h.sublist (List.sublist_append_left a b)

theorem right (h : Ordered (a ++ b)) : Ordered b :=
  h.sublist (List.sublist_append_right a b)

theorem between (h : Ordered (a ++ b)) {t u : Token} (ht : t ∈ a) (hu : u ∈ b) :
    t.stop ≤ u.start :=
  (List.pairwise_append.mp h.sorted).2.2 t ht u hu

/-- One of two tokens ends before the other starts. -/
theorem apart_of_ne (h : Ordered tokens) {t u : Token} (ht : t ∈ tokens) (hu : u ∈ tokens) (hne : t ≠ u) :
    t.stop ≤ u.start ∨ u.stop ≤ t.start := by
  obtain ⟨a, b, rfl⟩ := List.append_of_mem hu
  rcases List.mem_append.mp ht with ht | ht
  · exact .inl (h.between ht List.mem_cons_self)
  · have hm := (List.mem_cons.mp ht).resolve_left hne
    exact .inr ((List.pairwise_cons.mp h.right.sorted).1 t hm)

/-- Tokens that start at one place are the same one. -/
theorem eq_of_start (h : Ordered tokens) {t u : Token} (ht : t ∈ tokens) (hu : u ∈ tokens)
    (hstart : t.start = u.start) : t = u := by
  by_cases hsame : t = u
  · exact hsame
  · have := h.nonempty t ht
    have := h.nonempty u hu
    rcases h.apart_of_ne ht hu hsame with hle | hle <;> omega

/-- A token stands in one place. -/
theorem not_mem (h : Ordered (a ++ token :: b)) : token ∉ a ∧ token ∉ b := by
  have hlt := h.nonempty token (by simp)
  constructor
  · intro hm
    have := h.between hm List.mem_cons_self
    omega
  · intro hm
    have := (List.pairwise_cons.mp h.right.sorted).1 token hm
    omega

theorem tail (h : Ordered (token :: tokens)) : Ordered tokens :=
  right (a := [token]) h

/-- No token starts before the first one. -/
theorem start_le_of_head? (h : Ordered tokens) {first : Token} (hf : tokens.head? = some first)
    (ht : token ∈ tokens) : first.start ≤ token.start := by
  obtain ⟨more, rfl⟩ := List.head?_eq_some_iff.mp hf
  rcases List.mem_cons.mp ht with rfl | ht
  · exact Nat.le_refl _
  · have := h.nonempty first List.mem_cons_self
    have := (List.pairwise_cons.mp h.sorted).1 token ht
    omega

/-- No token ends behind the last one. -/
theorem stop_le_of_getLast? (h : Ordered tokens) {last : Token} (hl : tokens.getLast? = some last)
    (ht : token ∈ tokens) : token.stop ≤ last.stop := by
  obtain ⟨front, rfl⟩ := List.getLast?_eq_some_iff.mp hl
  rcases List.mem_append.mp ht with ht | ht
  · have hle := h.between ht (List.mem_singleton_self last)
    have := h.nonempty last (by simp)
    omega
  · obtain rfl := List.mem_singleton.mp ht
    exact Nat.le_refl _

end Ordered

theorem Scans.start_le {context : Context} {offset : Nat} {cs : List Char} {tokens : List Token}
    (h : Scans context offset cs tokens) : ∀ token ∈ tokens, offset ≤ token.start := by
  induction h with
  | done => simp
  | token _ _ _ ih =>
    intro t ht
    rcases List.mem_cons.mp ht with rfl | ht
    · simp [ofLexeme]
    · have := ih t ht
      omega

theorem Scans.ordered {context : Context} {offset : Nat} {cs : List Char} {tokens : List Token}
    (h : Scans context offset cs tokens) : Ordered tokens := by
  induction h with
  | done => exact ⟨by simp, .nil⟩
  | @token context offset gap c more kind rest tokens _ _ h ih =>
    have hpos := c.utf8Size_pos
    refine ⟨fun t ht => ?_, .cons (fun t ht => ?_) ih.sorted⟩
    · rcases List.mem_cons.mp ht with rfl | ht
      · rw [stop_ofLexeme]
        simp only [ofLexeme, Text.size_cons]
        omega
      · exact ih.nonempty t ht
    · rw [stop_ofLexeme]
      exact h.start_le t ht

/-! ## Places -/

/-- A token stands in the text where its offset says. -/
theorem Scans.token_at {context : Context} {offset : Nat} {cs : List Char} {tokens : List Token}
    (h : Scans context offset cs tokens) {token : Token} (ht : token ∈ tokens) :
    ∃ a b, cs = a ++ (token.text.toList ++ b) ∧ offset + Text.size a = token.start := by
  induction h with
  | done => cases ht
  | @token context offset gap c more kind rest tokens _ _ _ ih =>
    rcases List.mem_cons.mp ht with rfl | ht
    · exact ⟨gap, rest, by simp [ofLexeme], rfl⟩
    · obtain ⟨a, b, rfl, hsize⟩ := ih ht
      exact ⟨gap ++ (c :: more ++ a), b, by simp, by simp at *; omega⟩

/-- A token of a program stands in the text where its offset says. -/
theorem token_at {source : List Char} {tokens : List Token} (h : scan source = .ok tokens)
    {token : Token} (ht : token ∈ tokens) :
    ∃ a b, source = a ++ (token.text.toList ++ b) ∧ Text.size a = token.start := by
  obtain ⟨a, b, hab, hsize⟩ := (Scans.iff.mpr h).token_at ht
  refine ⟨(interpreterLine source).1 ++ a, b, ?_, by rw [Text.size_append, hsize]⟩
  rw [List.append_assoc, ← hab, interpreterLine_append]

theorem size_text (token : Token) : Text.size token.text.toList = token.stop - token.start := by
  have h := Text.utf8ByteSize_ofList token.text.toList
  rw [String.ofList_toList] at h
  rw [← h, stop, Nat.add_sub_cancel_left]

/-- A token of a program ends between characters. -/
theorem boundary_stop {source : List Char} {tokens : List Token} (h : scan source = .ok tokens)
    {token : Token} (ht : token ∈ tokens) : ∃ a b, source = a ++ b ∧ Text.size a = token.stop := by
  obtain ⟨a, b, hab, hsize⟩ := token_at h ht
  refine ⟨a ++ token.text.toList, b, by rw [List.append_assoc, hab], ?_⟩
  have : token.start ≤ token.stop := Nat.le_add_right ..
  rw [Text.size_append, hsize, size_text]
  omega

end Token

end DeferredLog
