import DeferredLog.Proofs.Import.Quick
import DeferredLog.Proofs.Import.Recast
import DeferredLog.Proofs.Program.Edit
import DeferredLog.Proofs.Rewrite.Again

/-!
# Text that is no code

The quick test and the search for the names of the logger look at the whole text, comments and strings
included. What is found there makes no difference: the tokens decide. So a module with another text in a
comment, or in a string that is no part of an import, is rewritten at the same places.

* `Edit.Inert`: a token that an edit leaves what it is.
* `Rewrite.File.Edited`: a file and another text for it, with the same tokens but for such an edit.
* `Rewrite.File.Edited.calls`: the calls of the logger are the same.
* `Project.rewrite_inert`: what comes of the two texts.
-/

namespace DeferredLog

open DeferredLog.Tree
open Rewrite (pieceAt)
open Text (weave weaveRest Woven)

/-! ## Edits between the ends of tokens -/

namespace Edit

variable {e : Edit} {token : Token} {a b : Nat}

/-- Whether an offset lies before the part or behind it. -/
def Clear (e : Edit) (offset : Nat) : Prop :=
  offset < e.offset ∨ e.offset + e.before < offset

/-- Offsets that are clear of the part stay in order. -/
theorem Clear.move_le_iff (ha : e.Clear a) (hb : e.Clear b) : e.move a ≤ e.move b ↔ a ≤ b := by
  unfold Clear at ha hb
  unfold move
  split <;> split <;> omega

/-- An offset before the part is one that stays. -/
theorem Clear.move_eq_iff_of_le (ha : e.Clear a) (hb : b ≤ e.offset) : e.move a = b ↔ a = b := by
  unfold Clear at ha
  unfold move
  split <;> omega

/-- An offset behind the part is one that moves with what is behind the part. -/
theorem move_eq_iff_of_lt (hb : 0 < b) :
    e.move a = e.offset + e.after + b ↔ a = e.offset + e.before + b := by
  unfold move
  split <;> omega

/-- A token that an edit leaves what it is: its text is the same if it is a name or a punctuator, and it
starts and ends apart from the part. -/
structure Inert (e : Edit) (token : Token) : Prop where
  /-- A name or a punctuator keeps its text. -/
  keeps : e.recast.Keeps token
  /-- The token starts apart from the part. -/
  start : e.Clear token.start
  /-- It ends apart from it. -/
  stop : e.Clear token.stop
  /-- It ends where its end goes. -/
  stop_eq : (e.token token).stop = e.move token.stop

theorem Inert.relocates (h : e.Inert token) : Relocates e.recast e.move token :=
  ⟨h.keeps, rfl, h.stop_eq⟩

/-- A token apart from the part is the same wherever it goes. -/
theorem inert_of_apart (htext : e.text token.start = none) (hpos : token.start < token.stop)
    (h : token.stop < e.offset ∨ e.offset + e.before < token.start) : e.Inert token := by
  have hsame := text_token htext
  have hstop : (e.token token).stop = e.move token.start + (token.stop - token.start) := by
    rw [Token.stop, hsame, Token.stop, Nat.add_sub_cancel_left]
    rfl
  refine ⟨fun _ => hsame, ?_, ?_, ?_⟩
  · unfold Clear
    omega
  · unfold Clear
    omega
  · rw [hstop]
    unfold move
    split <;> split <;> omega

/-- A string stays a string whatever it holds. -/
theorem inert_ofString {front old new : List Char} {quote : Char} (hk : token.kind = .string)
    (hquote : quote.utf8Size = 1) (hfront : Text.size front = token.start + 1)
    (hstop : token.stop = token.start + 1 + Text.size old + 1) :
    (ofString front old new quote token).Inert token := by
  generalize he : ofString front old new quote token = e
  have hoffset : e.offset = token.start + 1 := by rw [← he, ← hfront]; rfl
  have hbefore : e.before = Text.size old := he ▸ rfl
  have hafter : e.after = Text.size new := he ▸ rfl
  have htext : (e.token token).text = String.ofList (quote :: (new ++ [quote])) := by
    rw [← he]
    simp [Edit.token, ofString, behind]
  have hsize := Token.size_text (e.token token)
  have hle : (e.token token).start ≤ (e.token token).stop := Nat.le_add_right _ _
  have hstart : (e.token token).start = token.start := move_of_le (by omega)
  rw [htext, String.toList_ofList, Text.size_cons, Text.size_append, Text.size_cons, Text.size_nil,
    hquote] at hsize
  refine ⟨fun h => ?_, .inl (by omega), .inr (by omega), ?_⟩
  · rw [hk] at h
    rcases h with h | h <;> cases h
  · rw [move_of_lt (by omega)]
    omega

end Edit

/-! ## Calls of recast trees -/

namespace Recast

variable {g : Recast} {token : Token}

theorem Keeps.isPunct_eq (h : g.Keeps token) (text : String) :
    (g.token token).isPunct text = token.isPunct text :=
  h.alike.isPunct_eq text

end Recast

namespace Tree

variable {g : Recast} {move : Nat → Nat} {x : List Tree}

theorem startOf_mapAll (h : Relocated g move x) (hne : x ≠ []) :
    startOf (mapAll g.token x) = move (startOf x) := by
  obtain ⟨tree, x, rfl⟩ := List.exists_cons_of_ne_nil hne
  exact h.start_head

theorem stopOf_mapAll (h : Relocated g move x) (hne : x ≠ []) :
    stopOf (mapAll g.token x) = move (stopOf x) := by
  obtain ⟨x, tree, rfl⟩ := List.eq_nil_or_concat' x |>.resolve_left hne
  rw [mapAll_append]
  simpa [stopOf] using h.right.stop_head

/-- What is a call is one still. -/
theorem callOf_mapAll {name : String} (hx : ∀ token ∈ flattenAll x, g.Keeps token)
    (h : CallOf name x) : CallOf name (mapAll g.token x) := by
  cases h with
  | level hk ht hd hl =>
    simp only [flattenAll, flatten, List.forall_mem_append, List.forall_mem_singleton] at hx
    exact .level (by rw [g.kind, hk]) (by rw [hx.1 (.inl hk), ht]) (by rw [hx.2.1.isPunct_eq, hd])
      (by rw [g.kind, hl])
  | modifier hk ht hd hl hd' hm =>
    simp only [flattenAll, flatten, List.forall_mem_append, List.forall_mem_singleton] at hx
    exact .modifier (by rw [g.kind, hk]) (by rw [hx.1 (.inl hk), ht]) (by rw [hx.2.1.isPunct_eq, hd])
      (by rw [g.kind, hl]) (by rw [hx.2.2.2.1.isPunct_eq, hd']) (by rw [g.kind, hm])

theorem mapAll_eq_group {delimiter : Delimiter} {a b : Token} {inside : List Tree}
    (h : mapAll g.token x = [.group delimiter a b inside]) :
    ∃ a b inside, x = [.group delimiter a b inside] := by
  obtain ⟨a, b, inside, rest, rfl⟩ := mapAll_eq_group_cons _ h
  have hrest : mapAll g.token rest = [] := (List.cons.inj h).2
  rw [mapAll_eq_map, List.map_eq_nil_iff] at hrest
  exact ⟨a, b, inside, by rw [hrest]⟩

/-- What has become a call was one. -/
theorem callOf_of_mapAll {name : String} (hx : ∀ token ∈ flattenAll x, g.Keeps token)
    (h : CallOf name (mapAll g.token x)) : CallOf name x := by
  generalize hy : mapAll g.token x = y at h
  cases h with
  | level hk ht hd hl =>
    obtain ⟨head, _, rfl, rfl, h₁⟩ := mapAll_eq_leaf_cons _ hy
    obtain ⟨dot, _, rfl, rfl, h₂⟩ := mapAll_eq_leaf_cons _ h₁
    obtain ⟨level, _, rfl, rfl, h₃⟩ := mapAll_eq_leaf_cons _ h₂
    obtain ⟨a, b, inside, rfl⟩ := mapAll_eq_group h₃
    simp only [flattenAll, flatten, List.forall_mem_append, List.forall_mem_singleton] at hx
    rw [g.kind] at hk hl
    rw [hx.1 (.inl hk)] at ht
    rw [hx.2.1.isPunct_eq] at hd
    exact .level hk ht hd hl
  | modifier hk ht hd hl hd' hm =>
    obtain ⟨head, _, rfl, rfl, h₁⟩ := mapAll_eq_leaf_cons _ hy
    obtain ⟨dot, _, rfl, rfl, h₂⟩ := mapAll_eq_leaf_cons _ h₁
    obtain ⟨level, _, rfl, rfl, h₃⟩ := mapAll_eq_leaf_cons _ h₂
    obtain ⟨dot', _, rfl, rfl, h₄⟩ := mapAll_eq_leaf_cons _ h₃
    obtain ⟨modifier, _, rfl, rfl, h₅⟩ := mapAll_eq_leaf_cons _ h₄
    obtain ⟨a, b, inside, rfl⟩ := mapAll_eq_group h₅
    simp only [flattenAll, flatten, List.forall_mem_append, List.forall_mem_singleton] at hx
    rw [g.kind] at hk hl hm
    rw [hx.1 (.inl hk)] at ht
    rw [hx.2.1.isPunct_eq] at hd
    rw [hx.2.2.2.1.isPunct_eq] at hd'
    exact .modifier hk ht hd hl hd' hm

end Tree

/-! ## Files with another text -/

namespace Rewrite.File

variable {file : File} {e : Edit} {tokens : List Token} {trees : List Tree} {source : List Char}
  {record : Import}

/-- A file whose text is read as trees, and another text for it, where an edit leaves the tokens what
they are. The strings of imports keep their texts. -/
structure Edited (file : File) (e : Edit) (tokens : List Token) (trees : List Tree)
    (source : List Char) : Prop where
  /-- The tokens of the text. -/
  scan : Token.scan file.source = .ok tokens
  /-- The trees of the tokens. -/
  ofTokens : Tree.ofTokens tokens = .ok trees
  /-- The tokens of the other text. -/
  scan_source : Token.scan source = .ok (tokens.map e.token)
  /-- The edit leaves the tokens what they are. -/
  inert : ∀ token ∈ tokens, e.Inert token
  /-- Strings that stand in an import keep their texts. -/
  strings : ∀ token ∈ tokens, token.kind = .string →
    (∃ record ∈ Import.clauses 0 trees, record.span.contains token.start = true) →
    (e.token token).text = token.text

/-- What comes of a file that can be read, whether it passes the quick test or not. -/
theorem result_eq_found (hs : Token.scan file.source = .ok tokens)
    (ht : Tree.ofTokens tokens = .ok trees) :
    file.report.result = (file.found tokens trees (file.search trees)).2 := by
  cases hm : Import.mayOccur file.source with
  | true => exact report_result hm hs ht
  | false =>
    rw [report, hm, found, search, Import.ofTrees_eq_nil hs ht hm]
    rfl

/-- A file that can be read imports the logger if a binding is found. -/
theorem imports_of_binding (hs : Token.scan file.source = .ok tokens)
    (ht : Tree.ofTokens tokens = .ok trees) {binding : Binding}
    (hb : (file.search trees).binding = some binding) :
    ∃ record, file.Imports tokens trees record ∧ record.localNames = binding.names ∧
      record.span = binding.span := by
  obtain ⟨before, record, after, module, he, hbefore, hleads, rfl⟩ := binding_eq_some_iff.mp hb
  have hmem : record ∈ Import.ofTrees trees := by simp [he]
  obtain ⟨token, hm, hk, hword⟩ := Import.exists_word_of_mem_ofTrees hmem
  rw [ofTokens_flatten ht] at hm
  exact ⟨record, ⟨Import.mayOccur_of_mem hs hm hk hword, hs, ht, ⟨before, after, he, hbefore⟩,
    module, hleads⟩, rfl, rfl⟩

namespace Edited

theorem ordered (h : file.Edited e tokens trees source) : Token.Ordered (flattenAll trees) := by
  rw [ofTokens_flatten h.ofTokens]
  exact (Token.Scans.iff.mpr h.scan).ordered

theorem ordered_source (h : file.Edited e tokens trees source) :
    Token.Ordered (flattenAll (mapAll e.token trees)) := by
  rw [flattenAll_mapAll, ofTokens_flatten h.ofTokens]
  exact (Token.Scans.iff.mpr h.scan_source).ordered

theorem ofTokens_source (h : file.Edited e tokens trees source) :
    Tree.ofTokens (tokens.map e.token) = .ok (mapAll e.token trees) :=
  ofTokens_map e.recast.kind h.ofTokens

theorem relocated (h : file.Edited e tokens trees source) : Relocated e.recast e.move trees :=
  fun token ht => (h.inert token (ofTokens_flatten h.ofTokens ▸ ht)).relocates

/-- The program is the same, or there is none for the same cause. -/
theorem program (h : file.Edited e tokens trees source) :
    Agree (fun program program' => program' = program.mapTrees (mapAll e.token))
      (Program.ofTrees trees) (Program.ofTrees (mapAll e.token trees)) := by
  have hfits : e.recast.Fits true false (flattenAll trees ++ []) :=
    Recast.fits_of_keeps fun token ht => by
      rw [List.append_nil] at ht
      exact ⟨(h.relocated token ht).keeps, fun _ => rfl⟩
  exact Program.ofTrees_agrees (recasts_of_fits trees (pairedAll_of_ofTokens h.ofTokens) hfits)

/-- The other text is a program if the text is one, and that is the same. -/
theorem parses (h : file.Edited e tokens trees source) {items : List Item}
    (hp : Parses file.source tokens trees items) :
    ∃ items', Parses source (tokens.map e.token) (mapAll e.token trees) items' ∧
      Program.ofOutline items' = (Program.ofOutline items).mapTrees (mapAll e.token) := by
  obtain ⟨_, hprogram, rfl⟩ := h.program.exists_ok hp.ofTrees
  rw [Program.ofTrees] at hprogram
  cases hbody : Outline.body (mapAll e.token trees) with
  | error fault =>
    rw [hbody] at hprogram
    cases hprogram
  | ok items' =>
    rw [hbody] at hprogram
    exact ⟨items', ⟨h.scan_source, h.ofTokens_source, hbody⟩, Except.ok.inj hprogram⟩

/-- **The logger is imported as before**, by the import that moves. -/
theorem binding (h : file.Edited e tokens trees source) :
    ((file.withSource source).search (mapAll e.token trees)).binding =
      (file.search trees).binding.map (Binding.relocate e.move) := by
  have hrecords := Import.clauses_relocate h.relocated h.ordered fun token ht =>
    h.strings token (ofTokens_flatten h.ofTokens ▸ ht)
  have hsource : ((file.withSource source).search (mapAll e.token trees)).binding =
      (Binding.search (fun specifier => file.resolver specifier file.path) file.root file.target
        (Import.clauses 0 (mapAll e.recast.token trees))).binding :=
    binding_of_ordered h.ordered_source
  rw [hsource, hrecords, Binding.search_relocate, binding_of_ordered h.ordered]

/-- The file with the other text imports the logger by the same names. -/
theorem imports (h : file.Edited e tokens trees source) (himports : file.Imports tokens trees record) :
    ∃ record', (file.withSource source).Imports (tokens.map e.token) (mapAll e.token trees) record' ∧
      record'.localNames = record.localNames ∧ record'.span.stop = e.move record.span.stop := by
  obtain ⟨module, hb⟩ := himports.binding
  have hb' := h.binding
  rw [hb, Option.map_some] at hb'
  obtain ⟨record', himports', hnames, hspan⟩ :=
    imports_of_binding h.scan_source h.ofTokens_source hb'
  exact ⟨record', himports', hnames, by rw [hspan]; rfl⟩

section Calls

variable {items items' : List Item} {program : Program} {names : List String} {start : Nat}
  {s : Statement}

/-- A statement calls the logger if it did so before. -/
theorem invokes_iff (h : file.Edited e tokens trees source) (hne : s.trees ≠ [])
    (hs : ∀ token ∈ flattenAll s.trees, token ∈ tokens) (hstart : e.Clear start) :
    CallSite.Invokes (program.mapTrees (mapAll e.token)) names (e.move start)
        { s with trees := mapAll e.token s.trees } ↔
      CallSite.Invokes program names start s := by
  have hmoves : Relocated e.recast e.move s.trees := fun token ht => (h.inert token (hs token ht)).relocates
  have hkeeps : ∀ token ∈ flattenAll s.trees, e.recast.Keeps token := fun token ht => (hmoves token ht).keeps
  have hscopes : (program.mapTrees (mapAll e.token)).scopes = program.scopes := rfl
  obtain ⟨first, hf, hfirst⟩ := head?_flattenAll hne
  have hclear : e.Clear s.start := by
    have := (h.inert first (hs first (List.mem_of_head? hf))).start
    rwa [hfirst] at this
  have hmove : startOf (mapAll e.token s.trees) = e.move s.start := startOf_mapAll hmoves hne
  have hle : e.move start ≤ startOf (mapAll e.token s.trees) ↔ start ≤ s.start := by
    rw [hmove, hstart.move_le_iff hclear]
  refine and_congr hle (exists_congr fun name => and_congr_right fun _ => and_congr ?_ ?_)
  · exact ⟨callOf_of_mapAll hkeeps, callOf_mapAll hkeeps⟩
  · rw [Program.isShadowed_congr hscopes]

variable (h : file.Edited e tokens trees source) (himports : file.Imports tokens trees record)
  (hp : Parses file.source tokens trees items)

include h himports hp

/-- The calls of the logger end apart from the part. -/
theorem clear_of_mem_callEnds {stop : Nat} (hm : stop ∈ CallSite.callEnds file.source
    (.ofOutline items) record.localNames record.span.stop) : e.Clear stop := by
  obtain ⟨x, hx, -, rfl⟩ := himports.callStops hp stop hm
  obtain ⟨token, ht, hstop⟩ := hp.exists_stop hx
  exact hstop ▸ (h.inert token ht).stop

/-- **The calls of the logger are the same**, and end where their ends go. -/
theorem mem_callEnds_iff {record' : Import} (hnames : record'.localNames = record.localNames)
    (hspan : record'.span.stop = e.move record.span.stop)
    (himports' : (file.withSource source).Imports (tokens.map e.token) (mapAll e.token trees) record')
    (hp' : Parses source (tokens.map e.token) (mapAll e.token trees) items')
    (hprogram : Program.ofOutline items' = (Program.ofOutline items).mapTrees (mapAll e.token))
    {stop' : Nat} :
    stop' ∈ CallSite.callEnds source (.ofOutline items') record'.localNames record'.span.stop ↔
      ∃ stop ∈ CallSite.callEnds file.source (.ofOutline items) record.localNames record.span.stop,
        e.move stop = stop' := by
  have hclear : e.Clear record.span.stop := by
    obtain ⟨tree, htree, -, hstop⟩ := himports.ending hp
    obtain ⟨token, ht, heq⟩ := exists_stop_of_mem htree
    exact (heq.trans hstop) ▸ (h.inert token (hp.flattenAll_eq ▸ ht)).stop
  have hstatement : ∀ s ∈ (Program.ofOutline items).statements.toList,
      s.trees ≠ [] ∧ ∀ token ∈ flattenAll s.trees, token ∈ tokens := by
    intro s hs
    obtain ⟨hne, pre, post, heq, -⟩ := hp.sited _ (CallSite.mem_statementsAll hs)
    refine ⟨hne, fun token ht => ?_⟩
    rw [heq]
    exact List.mem_append_right _ (List.mem_append_left _ ht)
  have hstop : ∀ s ∈ (Program.ofOutline items).statements.toList,
      stopOf (mapAll e.token s.trees) = e.move s.stop := fun s hs =>
    stopOf_mapAll (g := e.recast)
      (fun token ht => (h.inert token ((hstatement s hs).2 token ht)).relocates) (hstatement s hs).1
  have hmem' := @himports'.mem_callEnds_iff _ _ _ _ _ hp' stop'
  rw [show (file.withSource source).source = source from rfl] at hmem'
  rw [hmem', hprogram, hnames, hspan]
  constructor
  · rintro ⟨s', hs', hinvokes, rfl⟩
    obtain ⟨s, hs, rfl⟩ := Program.mem_mapTrees hs'
    obtain ⟨hne, htokens⟩ := hstatement s hs
    exact ⟨s.stop, (himports.mem_callEnds_iff hp).mpr
      ⟨s, hs, (h.invokes_iff hne htokens hclear).mp hinvokes, rfl⟩, (hstop s hs).symm⟩
  · rintro ⟨stop, hm, rfl⟩
    obtain ⟨s, hs, hinvokes, rfl⟩ := (himports.mem_callEnds_iff hp).mp hm
    obtain ⟨hne, htokens⟩ := hstatement s hs
    refine ⟨{ s with trees := mapAll e.token s.trees }, ?_,
      (h.invokes_iff hne htokens hclear).mpr hinvokes, hstop s hs⟩
    rw [Program.mapTrees, Array.toList_map]
    exact List.mem_map_of_mem hs

end Calls

end Edited

end Rewrite.File

/-! ## The rewritten texts -/

namespace Rewrite

variable {stops stops' : List Nat} {front old new back : List Char} {text : Nat → Option String}

theorem pieceAt_congr {a b : Nat} (h : a ∈ stops' ↔ b ∈ stops) : pieceAt stops' a = pieceAt stops b := by
  simp only [pieceAt, h]

/-- **Both texts get the same invocations** if these stand apart from the part, before it and behind it. -/
theorem weave_edited (hclear : ∀ stop ∈ stops, (Edit.behind front old new text).Clear stop)
    (hmem : ∀ stop', stop' ∈ stops' ↔ ∃ stop ∈ stops, (Edit.behind front old new text).move stop = stop') :
    weave (pieceAt stops) 0 (front ++ (old ++ back)) = weave (pieceAt stops) 0 front ++
        (old ++ weaveRest (pieceAt stops) (Text.size front + Text.size old) back) ∧
      weave (pieceAt stops') 0 (front ++ (new ++ back)) = weave (pieceAt stops) 0 front ++
        (new ++ weaveRest (pieceAt stops) (Text.size front + Text.size old) back) := by
  -- Offsets up to the part stay, those behind it move with the text there, and none lies in it.
  have hbefore : ∀ o ≤ Text.size front, pieceAt stops' o = pieceAt stops o := fun o ho =>
    pieceAt_congr <| (hmem o).trans
      ⟨fun ⟨s, hs, hm⟩ => (((hclear s hs).move_eq_iff_of_le ho).mp hm) ▸ hs,
        fun hs => ⟨o, hs, ((hclear o hs).move_eq_iff_of_le ho).mpr rfl⟩⟩
  have hbehind : ∀ n, 0 < n → n ≤ Text.size back →
      pieceAt stops' (Text.size front + Text.size new + n) =
        pieceAt stops (Text.size front + Text.size old + n) := fun n hn _ =>
    pieceAt_congr <| (hmem _).trans
      ⟨fun ⟨s, hs, hm⟩ => (Edit.move_eq_iff_of_lt hn).mp hm ▸ hs,
        fun hs => ⟨_, hs, (Edit.move_eq_iff_of_lt hn).mpr rfl⟩⟩
  have hnone : ∀ o, Text.size front < o → o ≤ Text.size front + Text.size old →
      pieceAt stops o = [] := fun o hlt hle => pieceAt_of_notMem fun hs => by
    have hclear := hclear o hs
    simp only [Edit.Clear, Edit.behind] at hclear
    omega
  have hnone' : ∀ o, Text.size front < o → o ≤ Text.size front + Text.size new →
      pieceAt stops' o = [] := fun o hlt hle => pieceAt_of_notMem fun hs' => by
    obtain ⟨s, hs, rfl⟩ := (hmem o).mp hs'
    rcases hclear s hs with hlt' | hlt'
    · rw [Edit.move_of_le (Nat.le_of_lt hlt')] at hlt
      exact absurd hlt (Nat.lt_asymm hlt')
    · simp only [Edit.behind] at hlt'
      rw [Edit.move_of_lt (show Text.size front < s by omega)] at hle
      simp only [Edit.behind] at hle
      omega
  have hfront : weave (pieceAt stops') 0 front = weave (pieceAt stops) 0 front := by
    have hrest : weaveRest (pieceAt stops') 0 front = weaveRest (pieceAt stops) 0 front :=
      Text.weaveRest_elsewhere fun n _ hn => by rw [Nat.zero_add]; exact hbefore n hn
    rw [Text.weave_eq, Text.weave_eq, hbefore 0 (Nat.zero_le _), hrest]
  constructor
  · rw [Text.weave_cut, Nat.zero_add, Text.weaveRest_past back hnone]
  · rw [Text.weave_cut, hfront, Nat.zero_add, Text.weaveRest_past back hnone',
      Text.weaveRest_elsewhere hbehind]

/-- A part of a text gets its invocations behind closing parentheses. -/
theorem woven_part {source : List Char}
    (h : ∀ stop ∈ stops, ∃ a b, source = a ++ ')' :: b ∧ Text.size a + 1 = stop)
    (pre part post : List Char) (hsource : source = pre ++ (part ++ post)) :
    Woven part (weaveRest (pieceAt stops) (Text.size pre) part) := by
  induction part generalizing pre with
  | nil => exact .nil
  | cons c part ih =>
    have hrest := ih (pre ++ [c]) (by rw [hsource]; simp)
    rw [Text.size_append, Text.size_cons, Text.size_nil, Nat.add_zero] at hrest
    rw [weaveRest, Text.weave_eq]
    by_cases hm : Text.size pre + c.utf8Size ∈ stops
    · obtain ⟨a, b, hab, hsize⟩ := h _ hm
      -- The text before the offset ends with the parenthesis, and with this character.
      have hsplit : a ++ [')'] ++ b = pre ++ [c] ++ (part ++ post) := by
        rw [← List.append_cons, ← hab, hsource]
        simp
      obtain ⟨hlast, -⟩ := Text.append_inj_of_size hsplit (by
        rw [Text.size_append, Text.size_append]
        exact hsize)
      obtain ⟨-, hc⟩ := List.append_inj' hlast rfl
      obtain rfl : ')' = c := (List.cons.inj hc).1
      rw [pieceAt_of_mem hm]
      exact .insert hrest
    · rw [pieceAt_of_notMem hm]
      exact .cons hrest

end Rewrite

/-! ## What comes of the two texts -/

namespace Rewrite.File.Edited

variable {file : File} {tokens : List Token} {trees : List Tree} {front old new back : List Char}
  {text : Nat → Option String} {out : Rewrite}

/-- **A file that is rewritten is rewritten at the same places with the other text.** -/
theorem result_ok
    (h : file.Edited (.behind front old new text) tokens trees (front ++ (new ++ back)))
    (hsource : file.source = front ++ (old ++ back)) (hout : file.report.result = .ok out) :
    ∃ out' U V, (file.withSource (front ++ (new ++ back))).report.result = .ok out' ∧
      Woven front U ∧ Woven back V ∧ out.code = U ++ (old ++ V) ∧ out'.code = U ++ (new ++ V) ∧
      (out'.map = none ↔ out.map = none) := by
  cases hb : (file.search trees).binding with
  | none =>
    have hb' := h.binding
    rw [hb] at hb'
    rw [result_eq_found h.scan h.ofTokens, found, hb] at hout
    obtain rfl := Except.ok.inj hout
    refine ⟨unchanged (front ++ (new ++ back)), front, back, ?_, .refl _, .refl _, hsource, rfl, Iff.rfl⟩
    rw [result_eq_found h.scan_source h.ofTokens_source, found, hb']
    rfl
  | some binding =>
    obtain ⟨record, himports, -⟩ := imports_of_binding h.scan h.ofTokens hb
    obtain ⟨record', himports', hnames, hspan⟩ := h.imports himports
    obtain ⟨items, hp⟩ := himports.parses hout
    obtain ⟨items', hp', hprogram⟩ := h.parses hp
    have hp' : Parses (file.withSource (front ++ (new ++ back))).source _ _ items' := hp'
    have hout' := himports'.result
    rw [hp'.ofTrees] at hout'
    obtain ⟨hcode, hmap⟩ := himports.rewritten hp hout rfl
    obtain ⟨hcode', hmap'⟩ := himports'.rewritten hp' hout' rfl
    have hclosing : ∀ stop ∈ CallSite.callEnds file.source (.ofOutline items) record.localNames
        record.span.stop, ∃ a b, front ++ (old ++ back) = a ++ ')' :: b ∧ Text.size a + 1 = stop :=
      fun stop hs => hsource ▸ hp.closing_at (himports.callStops hp) hs
    have hmem : ∀ stop', stop' ∈ CallSite.callEnds (front ++ (new ++ back)) (.ofOutline items')
        record'.localNames record'.span.stop ↔ _ := fun stop' =>
      h.mem_callEnds_iff himports hp hnames hspan himports' hp' hprogram
    obtain ⟨hweave, hweave'⟩ := weave_edited (fun stop => h.clear_of_mem_callEnds himports hp) hmem
    refine ⟨_, _, _, hout', ?_, ?_, hcode.trans ((congrArg _ hsource).trans hweave), hcode'.trans hweave', ?_⟩
    · rw [Text.weave_eq, pieceAt_of_notMem fun hm => ?_]
      · exact woven_part hclosing [] front (old ++ back) rfl
      · obtain ⟨a, b, -, hsize⟩ := hclosing 0 hm
        omega
    · have hback := woven_part hclosing (front ++ old) back [] (by simp)
      rwa [Text.size_append] at hback
    · rw [hmap, hmap', List.eq_nil_iff_forall_not_mem, List.eq_nil_iff_forall_not_mem]
      constructor
      · exact fun hnone stop hs => hnone _ ((hmem _).mpr ⟨stop, hs, rfl⟩)
      · intro hnone stop' hs'
        obtain ⟨stop, hs, -⟩ := (hmem stop').mp hs'
        exact hnone stop hs

/-- **A file that is no program is none with the other text**, for the same cause. -/
theorem result_error
    (h : file.Edited (.behind front old new text) tokens trees (front ++ (new ++ back)))
    {fault : RewriteFault} (hout : file.report.result = .error fault) :
    ∃ position position' cause cause', fault = .noProgram file.path position cause ∧
      (file.withSource (front ++ (new ++ back))).report.result =
        .error (.noProgram file.path position' cause') ∧ cause'.cause = cause.cause := by
  cases hb : (file.search trees).binding with
  | none =>
    rw [result_eq_found h.scan h.ofTokens, found, hb] at hout
    cases hout
  | some binding =>
    obtain ⟨record, himports, -⟩ := imports_of_binding h.scan h.ofTokens hb
    obtain ⟨record', himports', -⟩ := h.imports himports
    rw [himports.result] at hout
    cases hprogram : Program.ofTrees trees with
    | ok program =>
      rw [hprogram] at hout
      cases hout
    | error cause =>
      rw [hprogram] at hout
      obtain ⟨cause', hprogram', hcause⟩ := h.program.exists_error hprogram
      refine ⟨_, Position.ofOffset (front ++ (new ++ back)) cause'.offset, cause, cause',
        (Except.error.inj hout).symm, ?_, hcause⟩
      rw [himports'.result, hprogram']
      rfl

end Rewrite.File.Edited

/-! ## Comments and strings -/

/-- `Interior trees front old new back`: between two texts stands what a comment holds, or the line that
names an interpreter, or a string that is no part of an import with a clause. Another text can stand
there: the comment does not end earlier and has a line break or not as before, the string needs no
escapes. -/
inductive Interior (trees : List Tree) (front old new back : List Char) : Prop
  | comment {kind : CommentKind} :
      CommentAt (front ++ (old ++ back)) (flattenAll trees) kind front old back → kind.Holds new →
      (kind = .block → new.any Text.isLineBreak = old.any Text.isLineBreak) →
      Interior trees front old new back
  | interpreter : front = ['#', '!'] → CommentKind.line.Holds old → CommentKind.line.Holds new →
      CommentKind.line.EndsBefore back → Interior trees front old new back
  | string {quote : Char} {token : Token} : token ∈ flattenAll trees → token.kind = .string →
      token.text.toList = quote :: (old ++ [quote]) → Text.size front = token.start + 1 →
      new.all (Lexeme.isPlain quote) = true →
      (∀ record ∈ Import.ofTrees trees, record.kind ≠ .dynamic →
        record.span.contains token.start = false) →
      Interior trees front old new back

namespace Interior

variable {trees : List Tree} {front old new back : List Char}

/-- A comment and a string are edited without harm to the tokens. -/
theorem edited (h : Interior trees front old new back) (file : Rewrite.File)
    (hsource : file.source = front ++ (old ++ back)) {tokens : List Token}
    (hs : Token.scan file.source = .ok tokens) (ht : Tree.ofTokens tokens = .ok trees) :
    ∃ text, file.Edited (.behind front old new text) tokens trees (front ++ (new ++ back)) := by
  have htokens := ofTokens_flatten ht
  have hordered : Token.Ordered tokens := (Token.Scans.iff.mpr hs).ordered
  have hapart : ∀ e : Edit, ∀ token ∈ tokens, e.text token.start = none →
      (token.stop < e.offset ∨ e.offset + e.before < token.start) → e.Inert token :=
    fun e token hm htext h => Edit.inert_of_apart htext (hordered.nonempty token hm) h
  cases h with
  | comment hat hnew hline =>
    rw [htokens, ← hsource] at hat
    exact ⟨_, hs, ht, Token.scan_comment hs hat hnew hline,
      fun token hm => hapart _ token hm rfl (Token.apart_comment hs hat token hm), fun _ _ _ _ => rfl⟩
  | interpreter hfront hold hnew hends =>
    subst hfront
    have hs' : Token.scan ('#' :: '!' :: (old ++ back)) = .ok tokens := by
      rw [hsource] at hs
      exact hs
    exact ⟨_, hs, ht, Token.scan_interpreter hs' hold hnew hends, fun token hm =>
      hapart _ token hm rfl (.inr (Token.apart_interpreter hs' hold hends token hm)), fun _ _ _ _ => rfl⟩
  | @string quote token hm hk htext hfront hnew hrecords =>
    rw [htokens] at hm
    have hquote : Char.utf8Size quote = 1 := by
      rcases (Token.Scans.iff.mpr hs).quote_of_string hm hk htext with rfl | rfl <;> decide
    have hstop : token.stop = token.start + 1 + Text.size old + 1 := by
      have hsize := Token.size_text token
      have := hordered.nonempty token hm
      rw [htext, Text.size_cons, Text.size_append, Text.size_cons, Text.size_nil, hquote] at hsize
      omega
    have hscan := Token.scan_string hs hm hk htext hsource hfront hnew
    refine ⟨_, hs, ht, hscan, fun other ho => ?_, fun other ho _ ⟨record, hr, hc⟩ => ?_⟩
    · by_cases heq : other = token
      · rw [heq]
        exact Edit.inert_ofString hk hquote hfront hstop
      · have hsides := hordered.apart_of_ne ho hm heq
        have := hordered.nonempty other ho
        refine hapart _ other ho (if_neg fun h => ?_) ?_
        · omega
        · simp only [Edit.behind]
          omega
    · have hne : other.start ≠ token.start := by
        intro heq
        have hmem : record ∈ Import.ofTrees trees :=
          List.mem_mergeSort.mpr (List.mem_append_left _ hr)
        rw [heq, hrecords record hmem (Import.not_dynamic_of_mem_clauses hr)] at hc
        cases hc
      exact Edit.text_token (if_neg hne)

end Interior

namespace Project

variable {project : Project} {resolver : Resolver} {path : String} {front old new back : List Char}
  {trees : List Tree}

/-- **Text inside of comments and strings is never code.** Put another text in the place of what a comment
holds, or a string that is no part of an import with a clause. A module that is rewritten is rewritten
with it too, to the same text but for what was replaced, and is changed exactly if it was changed before.
A module that is no program is none then for the same cause. -/
theorem rewrite_inert (htrees : Tree.parse (front ++ (old ++ back)) = .ok trees)
    (h : Interior trees front old new back) :
    (∀ out, (project.rewrite resolver path (front ++ (old ++ back))).result = .ok out →
      ∃ out' before behind, (project.rewrite resolver path (front ++ (new ++ back))).result = .ok out' ∧
        Woven front before ∧ Woven back behind ∧
        out.code = before ++ (old ++ behind) ∧ out'.code = before ++ (new ++ behind) ∧
        (out'.map = none ↔ out.map = none)) ∧
    ∀ file position fault, (project.rewrite resolver path (front ++ (old ++ back))).result =
        .error (.noProgram file position fault) →
      ∃ position' fault', (project.rewrite resolver path (front ++ (new ++ back))).result =
        .error (.noProgram file position' fault') ∧ fault'.cause = fault.cause := by
  obtain ⟨tokens, hs, ht⟩ : ∃ tokens, Token.scan (front ++ (old ++ back)) = .ok tokens ∧
      Tree.ofTokens tokens = .ok trees := by
    unfold Tree.parse at htrees
    split at htrees
    · cases htrees
    · exact ⟨_, ‹_›, htrees⟩
  cases hroot : project.root with
  | none =>
    simp only [rewrite, hroot]
    exact ⟨nofun, nofun⟩
  | some root =>
    rw [rewrite_of_root hroot, rewrite_of_root hroot]
    obtain ⟨text, hedited⟩ :=
      h.edited (project.file root resolver path (front ++ (old ++ back))) rfl hs ht
    refine ⟨fun out hout => hedited.result_ok rfl hout, fun file position fault hout => ?_⟩
    obtain ⟨_, position', _, fault', heq, hresult, hcause⟩ := hedited.result_error hout
    obtain ⟨rfl, rfl, rfl⟩ := RewriteFault.noProgram.inj heq
    exact ⟨position', fault', hresult, hcause⟩

/-- Text before a comment: a module that calls the logger. -/
def calling : List Char :=
  "import log from './logger';\nlog.info(1);//".toList

/-- A comment in which a call of the logger stands, and one with an import in it. -/
theorem rewrite_inert_comment : ∃ trees out out' before behind,
    Tree.parse (calling ++ ("log.info(2);".toList ++ ['\n'])) = .ok trees ∧
      Interior trees calling "log.info(2);".toList "import('a')".toList ['\n'] ∧
      (sample.rewrite toLogger "/p/src/a.ts" (calling ++ ("log.info(2);".toList ++ ['\n']))).result =
        .ok out ∧ out.map ≠ none ∧
      (sample.rewrite toLogger "/p/src/a.ts" (calling ++ ("import('a')".toList ++ ['\n']))).result =
        .ok out' ∧ out'.map ≠ none ∧
      Woven calling before ∧ Woven ['\n'] behind ∧
      out.code = before ++ ("log.info(2);".toList ++ behind) ∧
      out'.code = before ++ ("import('a')".toList ++ behind) := by
  have hread : (Tree.parse (calling ++ ("log.info(2);".toList ++ ['\n']))).toOption.any (fun trees =>
      Token.endOf 0 (flattenAll trees) = 40) = true := by
    decide +kernel
  have hrewrite : (sample.rewrite toLogger "/p/src/a.ts"
      (calling ++ ("log.info(2);".toList ++ ['\n']))).result.toOption.any (·.map.isSome) = true := by
    decide +kernel
  obtain ⟨trees, htrees, hend⟩ := exists_of_any_toOption hread
  obtain ⟨out, hout, hmap⟩ := exists_of_any_toOption hrewrite
  have hmap : out.map ≠ none := by
    intro hnone
    simp [hnone] at hmap
  have hcomment : CommentAt (calling ++ ("log.info(2);".toList ++ ['\n'])) (flattenAll trees) .line calling
      "log.info(2);".toList ['\n'] :=
    ⟨rfl, ⟨flattenAll trees, [], "import log from './logger';\nlog.info(1);".toList, [],
      (List.append_nil _).symm, by decide +kernel, (of_decide_eq_true hend).symm, .nil⟩,
      by decide +kernel, by decide +kernel⟩
  have hinterior : Interior trees calling "log.info(2);".toList "import('a')".toList ['\n'] :=
    .comment hcomment (by decide +kernel) nofun
  obtain ⟨out', before, behind, hout', hbefore, hbehind, hcode, hcode', hsame⟩ :=
    (rewrite_inert htrees hinterior).1 out hout
  exact ⟨trees, out, out', before, behind, htrees, hinterior, hout, hmap, hout', fun h => hmap (hsame.mp h),
    hbefore, hbehind, hcode, hcode'⟩

end Project

end DeferredLog
