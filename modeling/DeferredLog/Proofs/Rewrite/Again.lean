import DeferredLog.Proofs.Import.Invocation
import DeferredLog.Proofs.Rewrite.Result

/-!
# Rewriting a module again

A rewritten module is read as the same program with invocations, so it imports the logger as before.
A call with an invocation behind it is no call of the logger any more, and nothing else has become
one. So rewriting the module again changes nothing.

* `Project.scan_rewrite`: what a rewritten module is read as.
* `CallOf.of_invokedAll`: what looks like a call with invocations was a call without one behind it.
* `Project.rewrite_again`: rewriting a rewritten module.
-/

namespace DeferredLog

open DeferredLog.Tree
open Rewrite (shift pieceAt)
open Text (weave)

/-! ## Calls with invocations -/

namespace Tree

variable {stops : List Nat} {x : List Tree}

theorem invokedAll_eq_leaf {token : Token} {rest : List Tree}
    (h : invokedAll stops x = .leaf token :: rest) : ∃ token' x', x = .leaf token' :: x' ∧
      token'.moved stops = token ∧ invokedAll stops x' = rest := by
  cases x with
  | nil => cases h
  | cons tree x =>
    cases tree with
    | leaf token' =>
      obtain ⟨ht, hr⟩ := List.cons.inj h
      exact ⟨token', x, rfl, Tree.leaf.inj ht, hr⟩
    | group => cases h

theorem invokedAll_eq_group {delimiter : Delimiter} {a b : Token} {inside : List Tree}
    (h : invokedAll stops x = [.group delimiter a b inside]) :
    ∃ a' b' inside', x = [.group delimiter a' b' inside'] ∧ b'.stop ∉ stops := by
  cases x with
  | nil => cases h
  | cons tree x =>
    cases tree with
    | leaf => cases h
    | group d a' b' inside' =>
      by_cases hb : b'.stop ∈ stops
      · rw [invokedAll_cons, invoked_group_of_mem hb] at h
        cases h
      · rw [invokedAll_cons, invoked_group_of_notMem hb] at h
        obtain ⟨hg, hx⟩ := List.cons.inj h
        obtain ⟨rfl, -⟩ := Tree.group.inj hg
        cases x with
        | nil => exact ⟨a', b', inside', rfl, hb⟩
        | cons tree x => cases tree <;> cases hx

end Tree

/-- **What is a call among trees with invocations is one without**, and has no invocation behind
it. -/
theorem CallOf.of_invokedAll {name : String} {stops : List Nat} {x : List Tree}
    (h : CallOf name (invokedAll stops x)) : CallOf name x ∧ stopOf x ∉ stops := by
  generalize hy : invokedAll stops x = y at h
  cases h with
  | level hk ht hd hl =>
    obtain ⟨head, _, rfl, rfl, h₁⟩ := invokedAll_eq_leaf hy
    obtain ⟨dot, _, rfl, rfl, h₂⟩ := invokedAll_eq_leaf h₁
    obtain ⟨level, _, rfl, rfl, h₃⟩ := invokedAll_eq_leaf h₂
    obtain ⟨a, b, inside, rfl, hb⟩ := invokedAll_eq_group h₃
    exact ⟨.level hk ht hd hl, hb⟩
  | modifier hk ht hd hl hd' hm =>
    obtain ⟨head, _, rfl, rfl, h₁⟩ := invokedAll_eq_leaf hy
    obtain ⟨dot, _, rfl, rfl, h₂⟩ := invokedAll_eq_leaf h₁
    obtain ⟨level, _, rfl, rfl, h₃⟩ := invokedAll_eq_leaf h₂
    obtain ⟨dot', _, rfl, rfl, h₄⟩ := invokedAll_eq_leaf h₃
    obtain ⟨modifier, _, rfl, rfl, h₅⟩ := invokedAll_eq_leaf h₄
    obtain ⟨a, b, inside, rfl, hb⟩ := invokedAll_eq_group h₅
    exact ⟨.modifier hk ht hd hl hd' hm, hb⟩

/-- A call gets an empty group in parentheses behind it. -/
theorem CallOf.invokedAll_eq {name : String} {stops : List Nat} {x : List Tree} (h : CallOf name x)
    (hm : stopOf x ∈ stops) :
    ∃ (front : List Token) (opening closing : Token) (arguments : List Tree),
      x = front.map Tree.leaf ++ [.group .paren opening closing arguments] ∧
      invokedAll stops x = (front.map (·.moved stops)).map Tree.leaf ++
        [.group .paren (opening.moved stops) (closing.moved stops) (invokedAll stops arguments),
          .group .paren (closing.opening stops) (closing.closing stops) []] := by
  obtain ⟨front, a, b, arguments, rfl, -⟩ := h.split
  have hb : b.stop ∈ stops := by simpa [stopOf, Tree.stop] using hm
  exact ⟨front, a, b, arguments, rfl, by simp [invokedAll_map_leaf, invoked_group_of_mem hb]⟩

/-! ## Offsets -/

namespace Parses

variable {source : List Char} {tokens : List Token} {trees : List Tree} {items : List Item}
  {stops : List Nat}

/-- A token without an invocation behind it ends where its end goes. -/
theorem stop_moved (h : Parses source tokens trees items) (hs : CallStops items stops)
    {token : Token} (ht : token ∈ tokens) (hm : token.stop ∉ stops) :
    (token.moved stops).stop = shift stops token.stop := by
  have hpos := h.ordered.nonempty token ht
  have hnone : ∀ s ∈ stops, s ≤ token.start ∨ token.stop < s := by
    intro s hsm
    obtain ⟨x, hx, -, rfl⟩ := hs s hsm
    obtain ⟨other, hother, hstop⟩ := h.exists_stop hx
    have hne : other ≠ token := by
      rintro rfl
      exact hm (hstop ▸ hsm)
    obtain ⟨pre, post, rfl⟩ := List.append_of_mem ht
    have hordered := h.ordered
    rcases List.mem_append.mp hother with ho | ho
    · exact .inl (hstop ▸ hordered.between ho List.mem_cons_self)
    · have ho := (List.mem_cons.mp ho).resolve_left hne
      have hle := (List.pairwise_cons.mp hordered.right.sorted).1 other ho
      have := hordered.nonempty other (by simp [ho])
      exact .inr (by omega)
  have hshift := Rewrite.shift_of_none (Nat.le_of_lt hpos) hnone
  rw [hshift, Token.stop, Token.stop, Nat.add_sub_cancel_left]
  rfl

/-- The trees that an import can end with end where their ends go. -/
theorem settled (h : Parses source tokens trees items) (hs : CallStops items stops) :
    Import.Settled stops trees := by
  intro tree htree hending tree' htree'
  have hkind := (h.safe hs .start).kind_eq
  have hmem {token : Token} (ht : token ∈ tree.flatten) : token ∈ tokens :=
    h.flattenAll_eq ▸ mem_flattenAll htree ht
  cases tree with
  | leaf token =>
    obtain rfl := List.mem_singleton.mp htree'
    have ht := hmem (List.mem_singleton_self token)
    refine h.stop_moved hs ht fun hm => ?_
    have hk := hkind token ht hm
    rcases hending with hending | hending | hending
    · simp [string?, hk] at hending
    · simp [Outline.isGroup, inside?] at hending
    · simp [Tree.isPunct, Token.isPunct, hk] at hending
  | group d a b inside =>
    have ht : b ∈ tokens := hmem (by simp [flatten])
    have hd : d = .brace := by
      rcases hending with hending | hending | hending
      · cases hending
      · by_contra hne
        simp [Outline.isGroup, inside?, hne] at hending
      · cases hending
    have hpaired : closed? b.kind = some d := (pairedAll_iff.mp h.paired _ htree).2.1
    have hm : b.stop ∉ stops := by
      intro hm
      rw [hkind b ht hm, hd] at hpaired
      cases hpaired
    rw [invoked_group_of_notMem hm] at htree'
    obtain rfl := List.mem_singleton.mp htree'
    exact h.stop_moved hs ht hm

end Parses

/-! ## The import -/

namespace Binding

/-- A binding with the ends of its import moved. -/
def moved (stops : List Nat) (binding : Binding) : Binding :=
  { binding with span := ⟨shift stops binding.span.start, shift stops binding.span.stop⟩ }

/-- Moved imports lead where they led. -/
theorem search_moved (resolve : String → Option String) (root target : String) (stops : List Nat)
    (records : List Import) :
    (search resolve root target (records.map (Import.moved stops))).binding =
      (search resolve root target records).binding.map (moved stops) :=
  search_relocate resolve root target (shift stops) records

end Binding

namespace Rewrite.File

variable {file : File} {tokens : List Token} {trees : List Tree} {items : List Item}
  {stops : List Nat}

/-- Only imports with a clause matter to what is found. -/
theorem binding_of_ordered (h : Token.Ordered (flattenAll trees)) :
    (file.search trees).binding = (Binding.search (fun specifier => file.resolver specifier file.path)
      file.root file.target (Import.clauses 0 trees)).binding := by
  rw [search, ← Binding.binding_filter, Import.filter_ofTrees (start_le_of_ordered h),
    Binding.binding_filter]

theorem binding_eq (h : Parses file.source tokens trees items) :
    (file.search trees).binding = (Binding.search (fun specifier => file.resolver specifier file.path)
      file.root file.target (Import.clauses 0 trees)).binding :=
  binding_of_ordered (h.flattenAll_eq ▸ h.ordered)

/-- The file with another text. -/
def withSource (file : File) (source : List Char) : File :=
  { file with source }

/-- **The logger is imported as before**, by the import that moved. -/
theorem binding_invoked (h : Parses file.source tokens trees items) (hs : CallStops items stops)
    {source : List Char} {tokens' : List Token} {items' : List Item}
    (h' : Parses source tokens' (invokedAll stops trees) items') :
    ((file.withSource source).search (invokedAll stops trees)).binding =
      (file.search trees).binding.map (Binding.moved stops) := by
  have heq : ((file.withSource source).search (invokedAll stops trees)).binding = _ := binding_eq h'
  rw [binding_eq h, heq, Import.clauses_invoked (h.placed hs) (h.settled hs) fun _ _ => rfl, Binding.search_moved]
  rfl

/-- The file with invocations imports the logger by the same names. -/
theorem Imports.invoked {record : Import} (h : file.Imports tokens trees record)
    (hp : Parses file.source tokens trees items) (hs : CallStops items stops)
    {source : List Char} (hw : Text.Woven file.source source) {tokens' : List Token}
    {items' : List Item} (hp' : Parses source tokens' (invokedAll stops trees) items') :
    ∃ record', (file.withSource source).Imports tokens' (invokedAll stops trees) record' ∧
      record'.localNames = record.localNames ∧
      record'.span.stop = shift stops record.span.stop := by
  obtain ⟨module, hb⟩ := h.binding
  have hb' := binding_invoked hp hs hp'
  rw [hb, Option.map_some] at hb'
  obtain ⟨before, record', after, module', he, hbefore, hleads, heq⟩ := binding_eq_some_iff.mp hb'
  simp only [Binding.moved, Binding.mk.injEq] at heq
  refine ⟨record', ⟨Import.mayOccur_of_woven hw h.mayOccur, hp'.scan, hp'.ofTokens,
    ⟨before, after, he, hbefore⟩, module', hleads⟩, heq.1.symm, ?_⟩
  rw [← heq.2.1]

/-- A statement with invocations that calls the logger did so before, and has none behind it. -/
theorem invokes_of_mapTrees {program : Program} {names : List String} {start : Nat} {s : Statement}
    (hne : s.trees ≠ [])
    (h : CallSite.Invokes (program.mapTrees (invokedAll stops)) names (shift stops start)
      { s with trees := invokedAll stops s.trees }) :
    CallSite.Invokes program names start s ∧ s.stop ∉ stops := by
  obtain ⟨hle, name, hname, hcall, hshadow⟩ := h
  obtain ⟨hcall, hstop⟩ := hcall.of_invokedAll
  have hscopes : (program.mapTrees (invokedAll stops)).scopes = program.scopes := rfl
  rw [Program.isShadowed_congr hscopes] at hshadow
  refine ⟨⟨?_, name, hname, hcall, hshadow⟩, hstop⟩
  have hstart : startOf (invokedAll stops s.trees) = shift stops s.start := by
    obtain ⟨tree, more, hx⟩ := List.exists_cons_of_ne_nil hne
    have hs : s.start = tree.start := by
      rw [Statement.start, hx]
      rfl
    rw [hs, hx]
    cases tree <;> rfl
  have hle : shift stops start ≤ startOf (invokedAll stops s.trees) := hle
  rw [hstart] at hle
  by_contra hlt
  have : shift stops s.start < shift stops start := Rewrite.shift_lt_shift (Nat.lt_of_not_le hlt)
  omega

/-- **Nothing is left to rewrite** in a file that was rewritten. -/
theorem Imports.again {record : Import} (h : file.Imports tokens trees record)
    (hp : Parses file.source tokens trees items) (hs : stops = CallSite.callEnds file.source
      (.ofOutline items) record.localNames record.span.stop) :
    (file.withSource (weave (pieceAt stops) 0 file.source)).report.result =
      .ok (unchanged (weave (pieceAt stops) 0 file.source)) := by
  have hstops : CallStops items stops := hs ▸ h.callStops hp
  obtain ⟨items', hw, hp', herase, hstatements⟩ :=
    hp.invoked (hs ▸ CallSite.nodup_callEnds hp) hstops
  obtain ⟨record', h', hnames, hend⟩ := h.invoked hp hstops hw hp'
  have hprogram := Program.ofOutline_eq_of_eraseAll herase hstatements
  have hnone : CallSite.callEnds (file.withSource (weave (pieceAt stops) 0 file.source)).source
      (.ofOutline items') record'.localNames record'.span.stop = [] := by
    refine List.eq_nil_iff_forall_not_mem.mpr fun stop hm => ?_
    obtain ⟨s', hs', hinvokes, -⟩ := (h'.mem_callEnds_iff hp').mp hm
    rw [hprogram, hnames, hend] at hinvokes
    rw [hprogram] at hs'
    obtain ⟨s, hmem, rfl⟩ := Program.mem_mapTrees hs'
    have hne : s.trees ≠ [] := (hp.sited _ (CallSite.mem_statementsAll hmem)).1
    obtain ⟨hinvokes, hfree⟩ := invokes_of_mapTrees hne hinvokes
    refine hfree ?_
    rw [hs]
    exact (h.mem_callEnds_iff hp).mpr ⟨s, hmem, hinvokes, rfl⟩
  rw [h'.result, hp'.ofTrees]
  dsimp only
  rw [hnone]
  rfl

end Rewrite.File

/-! ## Modules of a project -/

namespace Project

variable {project : Project} {resolver : Resolver} {path root : String} {source : List Char}
  {out : Rewrite}

/-- **A module that is rewritten is read as the same program with invocations.** Two more tokens stand
behind the closing parenthesis of each call of the logger, and all others are the same but for their
offsets. The statements are the same, in the same scopes with the same names; an empty group in
parentheses stands at the end of each call of the logger, there and in the statements around it. -/
theorem scan_rewrite (hroot : project.root = some root)
    (hout : (project.rewrite resolver path source).result = .ok out) (hmap : out.map ≠ none) :
    ∃ tokens trees record program stops,
      (project.file root resolver path source).Imports tokens trees record ∧
      Program.ofTrees trees = .ok program ∧
      (∀ stop, stop ∈ stops ↔ ∃ s ∈ program.statements.toList,
        CallSite.Invokes program record.localNames record.span.stop s ∧ s.stop = stop) ∧
      (∀ stop ∈ stops, ∃ token ∈ tokens, token.stop = stop ∧ token.kind = .closeParen) ∧
      Token.scan out.code = .ok (Token.invokedAll stops tokens) ∧
      Tree.ofTokens (Token.invokedAll stops tokens) = .ok (Tree.invokedAll stops trees) ∧
      Program.ofTrees (Tree.invokedAll stops trees) =
        .ok (program.mapTrees (Tree.invokedAll stops)) ∧
      ∀ s ∈ program.statements.toList,
        CallSite.Invokes program record.localNames record.span.stop s →
        ∃ (front : List Token) (opening closing : Token) (arguments : List Tree),
          s.trees = front.map Tree.leaf ++ [.group .paren opening closing arguments] ∧
          invokedAll stops s.trees = (front.map (·.moved stops)).map Tree.leaf ++
            [.group .paren (opening.moved stops) (closing.moved stops) (invokedAll stops arguments),
              .group .paren (closing.opening stops) (closing.closing stops) []] := by
  rw [rewrite_of_root hroot] at hout
  rcases Rewrite.File.exists_imports hout with rfl | ⟨tokens, trees, record, h⟩
  · exact absurd rfl hmap
  obtain ⟨items, hp⟩ := h.parses hout
  obtain ⟨hcode, -⟩ := h.rewritten hp hout rfl
  have hstops := h.callStops hp
  obtain ⟨items', -, hp', herase, hstatements⟩ :=
    hp.invoked (CallSite.nodup_callEnds hp) hstops
  have hmem := @h.mem_callEnds_iff _ _ _ _ _ hp
  refine ⟨tokens, trees, record, .ofOutline items, _, h, hp.ofTrees, fun stop => hmem,
    fun stop hs => ?_, ?_, hp'.ofTokens, ?_, fun s hs hinvokes => ?_⟩
  · obtain ⟨x, hx, -, rfl⟩ := hstops stop hs
    obtain ⟨token, ht, hstop⟩ := hp.exists_stop hx
    exact ⟨token, ht, hstop, (hp.safe hstops .start).kind_eq token ht (hstop ▸ hs)⟩
  · rw [hcode]
    exact hp'.scan
  · rw [hp'.ofTrees, Program.ofOutline_eq_of_eraseAll herase hstatements]
  · obtain ⟨-, name, -, hcall, -⟩ := id hinvokes
    exact hcall.invokedAll_eq (hmem.mpr ⟨s, hs, hinvokes, rfl⟩)

theorem scan_rewrite_sample : ∃ (out : Rewrite) (program : Program) (stops : List Nat),
    (sample.rewrite toLogger "/p/src/a.ts" sampleText).result = .ok out ∧ out.map ≠ none ∧
      (∃ tokens trees, Token.scan out.code = .ok (Token.invokedAll stops tokens) ∧
        Tree.ofTokens (Token.invokedAll stops tokens) = .ok (Tree.invokedAll stops trees) ∧
        Program.ofTrees (Tree.invokedAll stops trees) =
          .ok (program.mapTrees (Tree.invokedAll stops))) := by
  obtain ⟨out, hout, hvalue⟩ := rewrite_sample
  have hmap : out.map ≠ none := by
    intro hnone
    simp [hnone] at hvalue
  obtain ⟨tokens, trees, _, program, stops, -, -, -, -, hscan, htrees, hprogram, -⟩ :=
    scan_rewrite (rfl : sample.root = some "/p") hout hmap
  exact ⟨out, program, stops, hout, hmap, tokens, trees, hscan, htrees, hprogram⟩

/-- **Rewriting a module again changes nothing.** -/
theorem rewrite_again (hout : (project.rewrite resolver path source).result = .ok out) :
    (project.rewrite resolver path out.code).result = .ok ⟨out.code, none⟩ := by
  cases hroot : project.root with
  | none =>
    rw [rewrite, hroot] at hout
    cases hout
  | some root =>
    rw [rewrite_of_root hroot] at hout ⊢
    rcases Rewrite.File.exists_imports hout with rfl | ⟨tokens, trees, record, h⟩
    · exact hout
    · obtain ⟨items, hp⟩ := h.parses hout
      rw [(h.rewritten hp hout rfl).1]
      exact h.again hp rfl

theorem rewrite_again_sample : ∃ out,
    (sample.rewrite toLogger "/p/src/a.ts" sampleText).result = .ok out ∧
      (sample.rewrite toLogger "/p/src/a.ts" out.code).result = .ok ⟨out.code, none⟩ := by
  obtain ⟨out, hout, -⟩ := rewrite_sample
  exact ⟨out, hout, rewrite_again hout⟩

end Project

end DeferredLog
