import DeferredLog.Proofs.CallSite.Locate
import DeferredLog.Proofs.Import.Clause
import DeferredLog.Proofs.Patch

/-!
# Rewritten modules

What comes of rewriting a module that imports the logger: its text with an invocation behind each
call of the logger, each of which is a statement of the program of its own.

* `Rewrite.render_patchOf`: the text of the patch.
* `Rewrite.File.Imports`: a module that imports the logger.
* `Project.rewrite_eq_weave`: the rewritten module.
* `Rewrite.File.exists_imports`: a module that is changed imports the logger.
-/

namespace DeferredLog

open DeferredLog.Tree
open Text (weave)

namespace Rewrite

/-! ## The patch -/

section Patch

variable {source : List Char} {sites : List CallSite} {stops : List Nat}

/-- The patch with an invocation at each of some offsets. -/
def patchAt (patch : Patch) (stops : List Nat) : Patch :=
  stops.foldl (fun patch offset => patch.insert offset invocation) patch

theorem patchAt_eq (patch : Patch) (stops : List Nat) :
    patchAt patch stops = patch.insertAll (stops.map (⟨·, invocation⟩)) := by
  rw [patchAt, Patch.insertAll, List.foldl_map]

theorem source_patchAt (patch : Patch) (stops : List Nat) :
    (patchAt patch stops).source = patch.source := by
  rw [patchAt_eq, Patch.source_insertAll]

theorem sorted_patchAt (patch : Patch) (h : Patch.Sorted patch.insertions) (stops : List Nat) :
    Patch.Sorted (patchAt patch stops).insertions := by
  rw [patchAt_eq]
  exact Patch.sorted_insertAll h _

/-- Each offset in the text gets one insertion. -/
theorem insertions_patchAt (patch : Patch) (stops : List Nat)
    (h : ∀ s ∈ stops, s ≤ Text.size patch.source) :
    (patchAt patch stops).insertions.Perm
      (stops.map (⟨·, invocation⟩) ++ patch.insertions) := by
  have hwithin : (stops.map (⟨·, invocation⟩)).map (Insertion.within patch.source) =
      stops.map (⟨·, invocation⟩) := by
    rw [List.map_map]
    exact List.map_congr_left fun s hs =>
      congrArg (Insertion.mk · invocation) (Nat.min_eq_left (h s hs))
  have hperm := Patch.insertions_insertAll patch (stops.map (⟨·, invocation⟩))
  rwa [hwithin, ← patchAt_eq] at hperm

/-- Without invocations a text stays as it is. -/
theorem weave_nil (source : List Char) : weave (pieceAt []) 0 source = source :=
  Text.weave_eq_self fun _ _ _ => rfl

/-- At an offset of the list once, one invocation stands. -/
theorem pieceOf_of_perm {insertions : List Insertion}
    (h : insertions.Perm (stops.map (⟨·, invocation⟩))) (hn : stops.Nodup) :
    Patch.pieceOf insertions = pieceAt stops := by
  funext offset
  have htext : ∀ i ∈ insertions.filter (·.offset = offset), i.text = invocation := by
    intro i hi
    obtain ⟨s, -, rfl⟩ := List.mem_map.mp (h.mem_iff.mp (List.mem_of_mem_filter hi))
    rfl
  have hlength : (insertions.filter (·.offset = offset)).length = stops.count offset := by
    rw [(h.filter _).length_eq, List.filter_map, List.length_map, List.count_eq_length_filter]
    exact congrArg List.length (List.filter_congr fun s _ => rfl)
  rw [Patch.pieceOf]
  by_cases hm : offset ∈ stops
  · rw [List.count_eq_one_of_mem hn hm, List.length_eq_one_iff] at hlength
    obtain ⟨i, hi⟩ := hlength
    rw [hi] at htext ⊢
    rw [pieceAt_of_mem hm, List.flatMap_singleton, htext i List.mem_cons_self]
  · rw [List.count_eq_zero_of_not_mem hm, List.length_eq_zero_iff] at hlength
    rw [hlength, pieceAt_of_notMem hm]
    rfl

theorem sorted_patchAt_of (source : List Char) (stops : List Nat) :
    Patch.Sorted (patchAt (.of source) stops).insertions :=
  sorted_patchAt (.of source) List.Pairwise.nil stops

theorem insertions_patchAt_of (hb : ∀ s ∈ stops, Patch.Boundary source s) :
    (patchAt (.of source) stops).insertions.Perm (stops.map (⟨·, invocation⟩)) := by
  have hperm := insertions_patchAt (.of source) stops fun s hs => by
    obtain ⟨a, b, rfl, rfl⟩ := hb s hs
    show Text.size a ≤ Text.size (a ++ b)
    rw [Text.size_append]
    omega
  rwa [show (Patch.of source).insertions = [] from rfl, List.append_nil] at hperm

/-- **The patch renders the text with one invocation at each of the offsets.** -/
theorem render_patchAt (hn : stops.Nodup) (hb : ∀ s ∈ stops, Patch.Boundary source s) :
    (patchAt (.of source) stops).render = weave (pieceAt stops) 0 source := by
  have hsource : (patchAt (.of source) stops).source = source := source_patchAt ..
  have hperm := insertions_patchAt_of hb
  have hrender := Patch.render_eq_weave (sorted_patchAt_of source stops) fun i hi => by
    obtain ⟨s, hs, rfl⟩ := List.mem_map.mp (hperm.mem_iff.mp hi)
    rw [hsource]
    exact hb s hs
  rwa [hsource, pieceOf_of_perm hperm hn] at hrender

theorem changes_patchAt (hb : ∀ s ∈ stops, Patch.Boundary source s) :
    (patchAt (.of source) stops).changes = !stops.isEmpty := by
  rw [Patch.changes, (insertions_patchAt_of hb).any_eq]
  cases stops <;> simp [invocation]

end Patch

/-! ## Modules that import the logger -/

namespace File

variable {file : File} {tokens : List Token} {trees : List Tree} {items : List Item}
  {record : Import} {out : Rewrite}

/-- Whether an import of a file leads to the logger, as the given module. -/
def LeadsTo (file : File) (record : Import) (module : String) : Prop :=
  Binding.LeadsTo (fun specifier => file.resolver specifier file.path) file.root file.target record
    module

/-- A file whose text is that of some trees and imports the logger: the given import is the first one
that leads to it. -/
structure Imports (file : File) (tokens : List Token) (trees : List Tree) (record : Import) :
    Prop where
  /-- The quick test does not rule out imports. -/
  mayOccur : Import.mayOccur file.source = true
  /-- The tokens of the text. -/
  scan : Token.scan file.source = .ok tokens
  /-- The trees of the tokens. -/
  ofTokens : Tree.ofTokens tokens = .ok trees
  /-- The import is there, and no import before it leads to the logger. -/
  first : ∃ before after, Import.ofTrees trees = before ++ record :: after ∧
    ∀ r ∈ before, ∀ module, ¬ file.LeadsTo r module
  /-- The import leads to the logger. -/
  leads : ∃ module, file.LeadsTo record module

theorem binding_eq_some_iff {binding : Binding} :
    (file.search trees).binding = some binding ↔
      ∃ before record after module, Import.ofTrees trees = before ++ record :: after ∧
        (∀ r ∈ before, ∀ m, ¬ file.LeadsTo r m) ∧ file.LeadsTo record module ∧
        binding = ⟨record.localNames, record.span, module⟩ :=
  Binding.search_eq_some_iff

/-- The import is the one that is found. -/
theorem Imports.binding (h : file.Imports tokens trees record) : ∃ module,
    (file.search trees).binding = some ⟨record.localNames, record.span, module⟩ := by
  obtain ⟨before, after, he, hbefore⟩ := h.first
  obtain ⟨module, hm⟩ := h.leads
  exact ⟨module, binding_eq_some_iff.mpr ⟨before, record, after, module, he, hbefore, hm, rfl⟩⟩

theorem report_result (hm : Import.mayOccur file.source = true)
    (hs : Token.scan file.source = .ok tokens) (ht : Tree.ofTokens tokens = .ok trees) :
    file.report.result = (file.found tokens trees (file.search trees)).2 := by
  rw [report, hm, hs]
  simp [ht]

/-- What comes of a file that imports the logger. -/
theorem Imports.result (h : file.Imports tokens trees record) :
    file.report.result = match Program.ofTrees trees with
      | .error fault => .error (file.failure fault)
      | .ok program => .ok (file.apply tokens (patchAt (.of file.source)
          (CallSite.callEnds file.source program record.localNames record.span.stop))) := by
  obtain ⟨module, hb⟩ := h.binding
  rw [report_result h.mayOccur h.scan h.ofTokens, found, hb]
  cases Program.ofTrees trees <;> rfl

/-- **A file that is changed imports the logger.** -/
theorem exists_imports (h : file.report.result = .ok out) :
    out = unchanged file.source ∨
      ∃ tokens trees record, file.Imports tokens trees record := by
  by_cases hm : Import.mayOccur file.source = true
  · cases hs : Token.scan file.source with
    | error fault =>
      rw [report, hm, hs] at h
      cases h
    | ok tokens =>
      cases ht : Tree.ofTokens tokens with
      | error fault =>
        rw [report, hm, hs] at h
        simp [ht] at h
      | ok trees =>
        rw [report_result hm hs ht, found] at h
        cases hb : (file.search trees).binding with
        | none =>
          rw [hb] at h
          exact .inl (Except.ok.inj h).symm
        | some binding =>
          obtain ⟨before, record, after, module, he, hbefore, hleads, -⟩ :=
            binding_eq_some_iff.mp hb
          exact .inr ⟨tokens, trees, record,
            ⟨hm, hs, ht, ⟨before, after, he, hbefore⟩, module, hleads⟩⟩
  · rw [Bool.not_eq_true] at hm
    rw [report, hm] at h
    exact .inl (Except.ok.inj h).symm

/-- The text of a file that is rewritten is a program. -/
theorem Imports.parses (h : file.Imports tokens trees record) (hout : file.report.result = .ok out) :
    ∃ items, Parses file.source tokens trees items := by
  rw [h.result, Program.ofTrees] at hout
  cases hb : Outline.body trees with
  | error fault =>
    rw [hb] at hout
    cases hout
  | ok items => exact ⟨items, h.scan, h.ofTokens, hb⟩

/-! ## Where the import ends -/

theorem start_le_of_ordered (h : Token.Ordered (flattenAll trees)) :
    trees.Pairwise fun a b => a.start ≤ b.start := by
  induction trees with
  | nil => exact .nil
  | cons tree trees ih =>
    refine .cons (fun other hm => ?_) (ih (Token.Ordered.right (a := tree.flatten) h))
    have hle := Token.Ordered.stop_le_start (a := []) h hm
    have hlt := h.start_lt_stop List.mem_cons_self
    omega

/-- The import that is found is one with a clause. -/
theorem mem_clauses_of_leadsTo (h : Parses file.source tokens trees items)
    (hm : record ∈ Import.ofTrees trees) {module : String} (hl : file.LeadsTo record module) :
    record ∈ Import.clauses 0 trees := by
  obtain ⟨specifier, hc, -⟩ := hl
  have hfilter := Import.filter_ofTrees (start_le_of_ordered (h.flattenAll_eq ▸ h.ordered))
  have hmem : record ∈ (Import.ofTrees trees).filter (·.candidate?.isSome) :=
    List.mem_filter.mpr ⟨hm, by simp [hc]⟩
  rw [hfilter] at hmem
  exact List.mem_of_mem_filter hmem

/-- The import ends with a tree of the program that is no part of a call. -/
theorem Imports.ending (h : file.Imports tokens trees record)
    (hp : Parses file.source tokens trees items) :
    ∃ tree ∈ trees, Import.Ending tree ∧ tree.stop = record.span.stop := by
  obtain ⟨before, after, he, -⟩ := h.first
  obtain ⟨module, hl⟩ := h.leads
  exact (Import.mem_clauses (mem_clauses_of_leadsTo hp (by simp [he]) hl)).2

/-- **The located calls** are the statements behind the import that call the logger by a name that it
introduces. -/
theorem Imports.mem_callEnds_iff (h : file.Imports tokens trees record)
    (hp : Parses file.source tokens trees items) {stop : Nat} :
    stop ∈ CallSite.callEnds file.source (.ofOutline items) record.localNames record.span.stop ↔
      ∃ s ∈ (Program.ofOutline items).statements.toList,
        CallSite.Invokes (.ofOutline items) record.localNames record.span.stop s ∧
          s.stop = stop := by
  obtain ⟨tree, htree, hending, hstop⟩ := h.ending hp
  rw [← hstop]
  exact CallSite.mem_callEnds_iff hp htree fun name x hc => hending.notMem hc

/-! ## The rewritten file -/

theorem callEnds_boundary (hp : Parses file.source tokens trees items) (names : List String)
    (start : Nat) {s : Nat}
    (hs : s ∈ CallSite.callEnds file.source (.ofOutline items) names start) :
    Patch.Boundary file.source s := by
  rw [CallSite.callEnds_eq] at hs
  obtain ⟨statement, hm, hc⟩ := List.mem_filterMap.mp hs
  obtain ⟨-, rfl⟩ := CallSite.callEnd?_eq_some_iff.mp hc
  have hmem := CallSite.mem_statementsAll (CallSite.mem_around (CallSite.mem_collected.mp hm)).1
  obtain ⟨token, ht, hstop⟩ := hp.exists_stop hmem
  have hboundary := Token.boundary_stop hp.scan ht
  rw [hstop] at hboundary
  exact hboundary

/-- The calls that are located end at closing parentheses. -/
theorem Imports.callStops (h : file.Imports tokens trees record)
    (hp : Parses file.source tokens trees items) :
    CallStops items
      (CallSite.callEnds file.source (.ofOutline items) record.localNames record.span.stop) := by
  intro s hs
  obtain ⟨statement, hm, ⟨-, name, -, hcall, -⟩, rfl⟩ := (h.mem_callEnds_iff hp).mp hs
  exact ⟨statement.trees, CallSite.mem_statementsAll hm, ⟨name, hcall⟩, rfl⟩

/-- **The rewritten file** has an invocation behind each located call, and a map if there is one. -/
theorem Imports.rewritten (h : file.Imports tokens trees record)
    (hp : Parses file.source tokens trees items) (hout : file.report.result = .ok out)
    {stops : List Nat} (hs : stops = CallSite.callEnds file.source (.ofOutline items)
      record.localNames record.span.stop) :
    out.code = weave (pieceAt stops) 0 file.source ∧ (out.map = none ↔ stops = []) := by
  have hboundary : ∀ s ∈ stops, Patch.Boundary file.source s := fun s hm =>
    callEnds_boundary hp _ _ (hs ▸ hm)
  have hn : stops.Nodup := hs ▸ CallSite.nodup_callEnds hp
  rw [h.result, hp.ofTrees] at hout
  have hout := (Except.ok.inj hout).symm
  rw [← hs, apply, changes_patchAt hboundary] at hout
  subst hout
  cases hstops : stops with
  | nil =>
    simp [unchanged, weave_nil]
  | cons stop more =>
    rw [← hstops, if_pos (by simp [hstops])]
    exact ⟨render_patchAt hn hboundary, by simp [hstops]⟩

end File

end Rewrite

/-! ## Modules of a project -/

namespace Project

variable {project : Project} {resolver : Resolver} {path root : String} {source : List Char}
  {tokens : List Token} {trees : List Tree} {record : Import} {out : Rewrite}

/-- A module of a project, once its root is known. -/
def file (project : Project) (root : String) (resolver : Resolver) (path : String)
    (source : List Char) : Rewrite.File :=
  ⟨root, project.target, resolver, path, source⟩

theorem rewrite_of_root (h : project.root = some root) :
    project.rewrite resolver path source = (project.file root resolver path source).report := by
  rw [rewrite, h]
  rfl

/-- A project, and how each specifier leads to its logger. -/
def sample : Project :=
  ⟨defaultLogger, some "/p"⟩

def toLogger : Resolver :=
  fun _ _ => some "/p/src/logger.ts"

/-- A module that imports the logger and calls it once. -/
def sampleText : List Char :=
  "import log from './logger';\nlog.info(1);\n".toList

theorem rewrite_sample : ∃ out, (sample.rewrite toLogger "/p/src/a.ts" sampleText).result = .ok out ∧
    (out.map.isSome &&
      out.code = "import log from './logger';\nlog.info(1)();\n".toList) = true :=
  exists_of_any_toOption (by decide +kernel)

end Project

end DeferredLog
