import DeferredLog.Proofs.Rewrite.Result
import DeferredLog.Proofs.Token.Word

/-!
# The quick test

A module whose text has neither the word `import` nor the word `export` is not read at all. That is a
test on characters, while imports are found in trees: the two agree because every import starts with a
token that is one of these words, and such a token stands in the text as a word.

* `Import.exists_word_of_mem_ofTrees`: the token that an import starts with.
* `Import.mayOccur_of_mem`: a text with such a token passes the test.
* `Import.ofTrees_eq_nil`: a text that fails the test has no imports.
* `Rewrite.File.reading`: the report on a file without the test.
* `Rewrite.File.quick_test`: the test finds the two words, and makes no difference to what is looked
  up and what comes of the file.
-/

namespace DeferredLog

open DeferredLog.Tree

namespace Import

/-! ## The token that an import starts with -/

/-- Whether a token is one of the words that imports and exports start with. -/
def IsWord (token : Token) : Prop :=
  token.kind = .ident ∧ (token.text = "import" ∨ token.text = "export")

theorem isWord_of_isIdent {token : Token}
    (h : isIdent "import" (.leaf token) = true ∨ isIdent "export" (.leaf token) = true) :
    IsWord token := by
  have hk : token.kind = .ident := by
    by_contra hk
    simp [isIdent, ident?, hk] at h
  exact ⟨hk, by simpa [isIdent, ident?, hk] using h⟩

theorem exists_isWord {tree : Tree} (h : tree.isIdent "import" = true ∨ tree.isIdent "export" = true) :
    ∃ token ∈ tree.flatten, IsWord token := by
  cases tree with
  | leaf token => exact ⟨token, List.mem_singleton_self token, isWord_of_isIdent h⟩
  | group => simp [isIdent, ident?] at h

mutual

theorem exists_word_of_mem_callsAt {afterDot : Bool} {next : Option Tree} (tree : Tree)
    {record : Import} (h : record ∈ callsAt afterDot next tree) :
    ∃ token ∈ tree.flatten, IsWord token :=
  match tree with
  | .group _ opening closing trees => by
    obtain ⟨token, ht, hword⟩ := exists_word_of_mem_calls trees h
    exact ⟨token, List.mem_cons_of_mem _ (List.mem_append_left _ ht), hword⟩
  | .leaf token => by
    unfold callsAt at h
    split at h
    · split at h
      · rename_i hcall
        exact exists_isWord (.inl (Bool.and_eq_true_iff.mp hcall).2)
      · cases h
    · cases h

/-- Every call of `import` has that word in it. -/
theorem exists_word_of_mem_calls {afterDot : Bool} (trees : List Tree) {record : Import}
    (h : record ∈ calls afterDot trees) : ∃ token ∈ flattenAll trees, IsWord token :=
  match trees with
  | [] => by cases h
  | tree :: trees => by
    rcases List.mem_append.mp h with h | h
    · obtain ⟨token, ht, hword⟩ := exists_word_of_mem_callsAt tree h
      exact ⟨token, List.mem_append_left _ ht, hword⟩
    · obtain ⟨token, ht, hword⟩ := exists_word_of_mem_calls trees h
      exact ⟨token, List.mem_append_right _ ht, hword⟩

end

/-- Every import with a clause starts with one of two words. -/
theorem exists_word_of_mem_clauses {trees : List Tree} {record : Import}
    (h : record ∈ clauses 0 trees) :
    ∃ tree ∈ trees, tree.isIdent "import" = true ∨ tree.isIdent "export" = true := by
  induction trees using clauses_induction with
  | nil => cases h
  | found tree trees first rest hat ih =>
    refine ⟨tree, List.mem_cons_self, ?_⟩
    unfold at? at hat
    split at hat
    · exact .inl ‹_›
    · split at hat
      · exact .inr ‹_›
      · cases hat
  | none tree trees hat ih =>
    rw [clauses_of_at?_none hat] at h
    obtain ⟨other, hm, hword⟩ := ih h
    exact ⟨other, List.mem_cons_of_mem _ hm, hword⟩

/-- Where there is an import, there is a token that is one of the two words. -/
theorem exists_word_of_mem_ofTrees {trees : List Tree} {record : Import}
    (h : record ∈ ofTrees trees) : ∃ token ∈ flattenAll trees, IsWord token := by
  rcases List.mem_append.mp (List.mem_mergeSort.mp h) with h | h
  · obtain ⟨tree, hm, hword⟩ := exists_word_of_mem_clauses h
    obtain ⟨token, ht, hword⟩ := exists_isWord hword
    exact ⟨token, mem_flattenAll hm ht, hword⟩
  · exact exists_word_of_mem_calls trees h

/-- The quick test finds the name tokens of the two words. -/
theorem mayOccur_of_mem {source : List Char} {tokens : List Token}
    (h : Token.scan source = .ok tokens) {token : Token} (ht : token ∈ tokens)
    (hk : token.kind = .ident) (hword : token.text = "import" ∨ token.text = "export") :
    mayOccur source = true := by
  rcases hword with hword | hword
  · exact Token.hasWord_of_mem h ht hk
      (show _ = 'i' :: "mport".toList by rw [hword]; rfl) rfl (by rw [hword]; simp)
  · exact Token.hasWord_of_mem h ht hk
      (show _ = 'e' :: "xport".toList by rw [hword]; rfl) rfl (by rw [hword]; simp)

/-- **A text without the two words has no imports.** -/
theorem ofTrees_eq_nil {source : List Char} {tokens : List Token} {trees : List Tree}
    (hs : Token.scan source = .ok tokens) (ht : Tree.ofTokens tokens = .ok trees)
    (hm : mayOccur source = false) : ofTrees trees = [] := by
  refine List.eq_nil_iff_forall_not_mem.mpr fun record hr => ?_
  obtain ⟨token, hmem, hk, hword⟩ := exists_word_of_mem_ofTrees hr
  rw [ofTokens_flatten ht] at hmem
  exact Bool.false_ne_true (hm.symm.trans (mayOccur_of_mem hs hmem hk hword))

end Import

namespace Rewrite.File

/-! ## The report without the test -/

/-- The report on a file that is read whether it passes the quick test or not. -/
def reading (file : File) : Report :=
  match Token.scan file.source with
  | .error fault => ⟨[], [], .error (file.failure fault)⟩
  | .ok tokens =>
    match Tree.ofTokens tokens with
    | .error fault => ⟨[], [], .error (file.failure fault)⟩
    | .ok trees =>
      let search := file.search trees
      let (notices, result) := file.found tokens trees search
      ⟨search.lookups, search.notices file.path ++ notices, result⟩

/-- The test comes before everything else. -/
theorem report_eq (file : File) :
    file.report =
      if Import.mayOccur file.source then file.reading
      else ⟨[], [file.notice .trace "no module syntax"], .ok (unchanged file.source)⟩ := by
  rw [report]
  cases Import.mayOccur file.source <;> rfl

/-- A file without imports is read for nothing. -/
theorem reading_of_ofTrees_eq_nil {file : File} {tokens : List Token} {trees : List Tree}
    (hs : Token.scan file.source = .ok tokens) (ht : Tree.ofTokens tokens = .ok trees)
    (hnone : Import.ofTrees trees = []) :
    file.reading = ⟨[], [file.notice .debug ("no import of " ++ file.target)],
      .ok (unchanged file.source)⟩ := by
  simp only [reading, hs, ht, search, hnone]
  rfl

/-- **The quick test agrees with the imports that are found.** If a token of a text is one of the two
words, the text passes. So a text that fails has no imports, and a file with it would stay as it is
without the test too: the test changes neither what is looked up for a file nor what comes of it. -/
theorem quick_test {file : File} {tokens : List Token} (hs : Token.scan file.source = .ok tokens) :
    ((∃ token ∈ tokens, token.kind = .ident ∧ (token.text = "import" ∨ token.text = "export")) →
        Import.mayOccur file.source = true) ∧
      ∀ trees, Tree.ofTokens tokens = .ok trees →
        (Import.mayOccur file.source = false →
          Import.ofTrees trees = [] ∧ file.reading.lookups = [] ∧
            file.reading.result = .ok ⟨file.source, none⟩) ∧
        file.report.lookups = file.reading.lookups ∧ file.report.result = file.reading.result := by
  refine ⟨fun ⟨token, hm, hk, hword⟩ => Import.mayOccur_of_mem hs hm hk hword, fun trees ht => ?_⟩
  have hreading (hm : Import.mayOccur file.source = false) :=
    reading_of_ofTrees_eq_nil hs ht (Import.ofTrees_eq_nil hs ht hm)
  refine ⟨fun hm => ⟨Import.ofTrees_eq_nil hs ht hm, ?_, ?_⟩, ?_⟩
  · rw [hreading hm]
  · rw [hreading hm]
    rfl
  · rw [report_eq]
    cases hm : Import.mayOccur file.source with
    | true => exact ⟨rfl, rfl⟩
    | false =>
      rw [hreading hm]
      exact ⟨rfl, rfl⟩

/-- A file where the words stand as parts of other words only. -/
def wordless : File :=
  ⟨"/p", "/src/logger.ts", fun _ _ => none, "/p/a.ts", "important.exports(1)".toList⟩

/-- A file with the word as a member name, which the test lets pass though there is no import. -/
def memberWord : File :=
  ⟨"/p", "/src/logger.ts", fun _ _ => none, "/p/a.ts", "a.import(1)".toList⟩

theorem quick_test_words : ∃ tokens trees tokens',
    Token.scan wordless.source = .ok tokens ∧ Tree.ofTokens tokens = .ok trees ∧
      Import.ofTrees trees = [] ∧ wordless.reading.result = .ok ⟨wordless.source, none⟩ ∧
      Token.scan memberWord.source = .ok tokens' ∧ Import.mayOccur memberWord.source = true := by
  have hread : (Token.scan wordless.source).toOption.any (fun tokens =>
      (Tree.ofTokens tokens).toOption.isSome) = true := by decide +kernel
  obtain ⟨tokens, hs, ht⟩ := exists_of_any_toOption hread
  obtain ⟨trees, ht⟩ : ∃ trees, Tree.ofTokens tokens = .ok trees := by
    cases h : Tree.ofTokens tokens with
    | error fault => simp [h, Except.toOption] at ht
    | ok trees => exact ⟨trees, rfl⟩
  have hread' : (Token.scan memberWord.source).toOption.any (fun tokens =>
      tokens.any fun token => decide (token.kind = .ident ∧ token.text = "import")) = true := by
    decide +kernel
  obtain ⟨tokens', hs', hword⟩ := exists_of_any_toOption hread'
  obtain ⟨token, hm, hword⟩ := List.any_eq_true.mp hword
  obtain ⟨hk, hword⟩ := of_decide_eq_true hword
  obtain ⟨hnone, -, hresult⟩ := ((quick_test hs).2 trees ht).1 (by decide +kernel)
  exact ⟨tokens, trees, tokens', hs, ht, hnone, hresult, hs',
    (quick_test hs').1 ⟨token, hm, hk, .inl hword⟩⟩

end Rewrite.File

end DeferredLog
