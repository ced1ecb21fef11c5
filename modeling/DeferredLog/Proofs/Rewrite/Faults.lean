import DeferredLog.Proofs.Program.Faults
import DeferredLog.Proofs.Rewrite.Result
import DeferredLog.Proofs.Text.Position

/-!
# Modules that are no programs

A module that imports the logger has to be a program. Where its text is none, the fault of the text is told with
its position, and nothing of the module is rewritten: its calls are looked for in the program only, and so not
in a part of the text that is read before the fault.

* `Rewrite.File.parse_of_failed`: a module fails for the fault of its text.
* `Project.rewrite_fault`: the position of a fault leads to its offset, and nothing stands beside it.
-/

namespace DeferredLog

namespace Rewrite.File

/-- The notice of a lookup that leads nowhere. -/
def unresolved (file : File) (lookup : Lookup) : Notice :=
  ⟨.debug, file.path ++ ": cannot resolve " ++ Text.quote lookup.specifier ++ ", skipping"⟩

theorem mem_searchNotices {file : File} {search : Binding.Search} {notice : Notice}
    (h : notice ∈ search.notices file.path) :
    ∃ lookup ∈ search.lookups, lookup.found = none ∧ notice = file.unresolved lookup := by
  obtain ⟨lookup, hm, rfl⟩ := List.mem_map.mp h
  obtain ⟨hm, hfound⟩ := List.mem_filter.mp hm
  exact ⟨lookup, hm, Option.isNone_iff_eq_none.mp hfound, rfl⟩

/-- A module is not rewritten only for the fault of its text, and beside it stands what could not be looked
up. -/
theorem parse_of_failed {file : File} {error : RewriteFault} (h : file.report.result = .error error) :
    ∃ fault, error = file.failure fault ∧ Program.parse file.source = .error fault ∧
      ∀ notice ∈ file.report.notices, ∃ lookup ∈ file.report.lookups,
        lookup.found = none ∧ notice = file.unresolved lookup := by
  by_cases hm : Import.mayOccur file.source = true
  case neg =>
    rw [report, if_pos (by simpa using hm)] at h
    cases h
  have hmay : ¬ (!Import.mayOccur file.source) = true := by simp [hm]
  cases hs : Token.scan file.source with
  | error fault =>
    rw [report, if_neg hmay, hs] at h ⊢
    cases h
    exact ⟨fault, rfl, Program.parse_eq_error_iff.mpr (.inl hs), List.forall_mem_nil _⟩
  | ok tokens =>
    cases ht : Tree.ofTokens tokens with
    | error fault =>
      simp only [report, if_neg hmay, hs, ht] at h ⊢
      cases h
      exact ⟨fault, rfl, Program.parse_eq_error_iff.mpr (.inr ⟨tokens, hs, .inl ht⟩), List.forall_mem_nil _⟩
    | ok trees =>
      simp only [report, if_neg hmay, hs, ht, found] at h ⊢
      cases hb : (file.search trees).binding with
      | none =>
        simp only [hb] at h
        cases h
      | some binding =>
        cases hp : Program.ofTrees trees with
        | ok program =>
          simp only [hb, hp] at h
          cases h
        | error fault =>
          simp only [hb, hp] at h ⊢
          cases h
          have hparse : Program.parse file.source = .error fault :=
            Program.parse_eq_error_iff.mpr (.inr ⟨tokens, hs, .inr ⟨trees, ht, hp⟩⟩)
          refine ⟨fault, rfl, hparse, fun notice hn => ?_⟩
          rw [List.append_nil] at hn
          exact mem_searchNotices hn

end Rewrite.File

namespace Project

variable {project : Project} {resolver : Resolver} {path file : String} {source : List Char}
  {position : Position} {fault : Fault}

/-- **The position of a fault leads back to its offset.** A module that fails for its text is the given one,
with the fault that the text has as a program. The fault is not behind the end of the text and at a boundary
between two characters, its position is where the text in front of it leads, and at that position is its
offset. No text comes of the module, and no notice of a call in it: there are notices of failed lookups only. -/
theorem rewrite_fault
    (h : (project.rewrite resolver path source).result = .error (.noProgram file position fault)) :
    file = path ∧ Program.parse source = .error fault ∧ fault.offset ≤ Text.size source ∧
      (∃ a b, source = a ++ b ∧ Text.size a = fault.offset ∧ position = Position.zero.after a) ∧
      position = Position.ofOffset source fault.offset ∧
      Position.offset? source position = some fault.offset ∧
      (∀ out, (project.rewrite resolver path source).result ≠ .ok out) ∧
      ∀ notice ∈ (project.rewrite resolver path source).notices,
        ∃ lookup ∈ (project.rewrite resolver path source).lookups, lookup.found = none ∧
          notice = ⟨.debug, path ++ ": cannot resolve " ++ Text.quote lookup.specifier ++ ", skipping"⟩ := by
  cases hroot : project.root with
  | none =>
    rw [rewrite, hroot] at h
    cases h
  | some root =>
    rw [rewrite_of_root hroot] at h ⊢
    obtain ⟨found, hfailure, hparse, hnotices⟩ := Rewrite.File.parse_of_failed h
    obtain ⟨rfl, rfl, rfl⟩ := RewriteFault.noProgram.inj hfailure
    obtain ⟨a, b, hcut, hsize⟩ := Program.boundary_of_parse hparse
    obtain rfl : source = a ++ b := hcut
    have hposition : Position.ofOffset (a ++ b) fault.offset = Position.zero.after a :=
      hsize ▸ Position.ofOffset_size a b
    refine ⟨rfl, hparse, ?_, ⟨a, b, rfl, hsize, hposition⟩, rfl, ?_, fun out hout => ?_, hnotices⟩
    · rw [← hsize, Text.size_append]
      exact Nat.le_add_right ..
    · exact hsize ▸ Position.offset?_ofOffset a b
    · rw [h] at hout
      cases hout

/-- A module with a call of the logger and a switch without its block, behind characters of several sizes. -/
def brokenText : List Char :=
  "import log from './logger';\nlog.info('é');\nswitch (log('😀')) case".toList

/-- The call is not rewritten, and what is missing is told at its place. -/
theorem rewrite_fault_switch :
    (sample.rewrite toLogger "/p/src/a.ts" brokenText).result =
        .error (.noProgram "/p/src/a.ts" ⟨2, 19⟩ ⟨.expected .switchBlock, 65⟩) ∧
      Position.offset? brokenText ⟨2, 19⟩ = some 65 ∧
      ∀ out, (sample.rewrite toLogger "/p/src/a.ts" brokenText).result ≠ .ok out := by
  have h : (sample.rewrite toLogger "/p/src/a.ts" brokenText).result =
      .error (.noProgram "/p/src/a.ts" ⟨2, 19⟩ ⟨.expected .switchBlock, 65⟩) := by
    decide +kernel
  obtain ⟨-, -, -, -, -, hoffset, hout, -⟩ := rewrite_fault h
  exact ⟨h, hoffset, hout⟩

end Project

end DeferredLog
