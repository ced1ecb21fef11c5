import DeferredLog.Proofs.Outline.Invocation
import DeferredLog.Proofs.Program.Layout

/-!
# Texts that are programs

What is known of a text that was read as a program: where its statements stand, and what it is read
as when some of its calls are invoked.

* `Parses.sited`, `Parses.apart`, `Parses.clear`: where the statements of a program stand.
* `Parses.invoked`: the program with invocations.
-/

namespace DeferredLog

open DeferredLog.Tree

/-- Whether some offsets are ends of calls in an outline. -/
def CallStops (items : List Item) (stops : List Nat) : Prop :=
  ∀ s ∈ stops, ∃ x ∈ Item.statementsAll items, (∃ name, CallOf name x) ∧ stopOf x = s

/-- What a text is read as: its tokens, their trees, and the outline of these. -/
structure Parses (source : List Char) (tokens : List Token) (trees : List Tree)
    (items : List Item) : Prop where
  /-- The tokens of the text. -/
  scan : Token.scan source = .ok tokens
  /-- The trees of the tokens. -/
  ofTokens : Tree.ofTokens tokens = .ok trees
  /-- The outline of the trees. -/
  body : Outline.body trees = .ok items

namespace Parses

variable {source : List Char} {tokens : List Token} {trees : List Tree} {items : List Item}

theorem flattenAll_eq (h : Parses source tokens trees items) : flattenAll trees = tokens :=
  ofTokens_flatten h.ofTokens

theorem paired (h : Parses source tokens trees items) : PairedAll none trees :=
  pairedAll_of_ofTokens h.ofTokens

theorem ordered (h : Parses source tokens trees items) : Token.Ordered tokens :=
  (Token.Scans.iff.mpr h.scan).ordered

theorem ofTrees (h : Parses source tokens trees items) :
    Program.ofTrees trees = .ok (Program.ofOutline items) := by
  rw [Program.ofTrees, h.body]
  rfl

/-- A statement is a run of tokens. -/
theorem sited (h : Parses source tokens trees items) :
    ∀ x ∈ Item.statementsAll items, Sited false [] tokens x := by
  obtain ⟨_, _, hgrows, -⟩ := Outline.body_grows (.invoking []) h.body
  rw [← h.flattenAll_eq]
  exact hgrows.sited h.paired (by simp)

/-- Of two statements the later one comes behind the earlier one or lies inside it. -/
theorem apart (h : Parses source tokens trees items) :
    (Item.statementsAll items).Pairwise Apart := by
  obtain ⟨_, _, hgrows, -⟩ := Outline.body_grows (.invoking []) h.body
  exact hgrows.pairwise h.paired (h.flattenAll_eq ▸ h.ordered)

/-- A call does not straddle the end of a tree at the top that is no part of a call. -/
theorem clear (h : Parses source tokens trees items) {tree : Tree} (hm : tree ∈ trees)
    (hc : ∀ name x, CallOf name x → tree ∉ x) :
    ∀ x ∈ Item.statementsAll items, (∃ name, CallOf name x) → Clear tree x := by
  obtain ⟨_, _, hgrows, -⟩ := Outline.body_grows (.invoking []) h.body
  exact hgrows.outside h.paired (h.flattenAll_eq ▸ h.ordered) hm hc

/-- A text that is a program has tokens, trees and an outline. -/
theorem exists_of_parse {program : Program} (hp : Program.parse source = .ok program) :
    ∃ tokens trees items, Tree.parse source = .ok trees ∧ Parses source tokens trees items ∧
      program = Program.ofOutline items := by
  cases htrees : Tree.parse source with
  | error =>
    rw [Program.parse, htrees] at hp
    cases hp
  | ok trees =>
    rw [Program.parse, htrees] at hp
    change (Outline.body trees).map Program.ofOutline = .ok program at hp
    cases hbody : Outline.body trees with
    | error =>
      rw [hbody] at hp
      cases hp
    | ok items =>
      rw [hbody] at hp
      obtain ⟨tokens, hscan, hbuilt⟩ := parse_eq_ok_iff.mp htrees
      exact ⟨tokens, trees, items, rfl, ⟨hscan, hbuilt, hbody⟩, (Except.ok.inj hp).symm⟩

section Invoked

variable {stops : List Nat}

/-- A program whose invocations stand behind calls grows by them and by nothing else. -/
theorem exact (h : Parses source tokens trees items)
    (hs : CallStops items stops) :
    ∃ trees' items', Outline.Grows.Exact stops trees trees' (Item.statementsAll items)
        (Item.statementsAll items') ∧
      Item.eraseAll items' = Item.eraseAll items ∧ Outline.body trees' = .ok items' := by
  obtain ⟨trees', items', hgrows, herase, hbody⟩ := Outline.body_grows (.invoking stops) h.body
  have hmarked : Marked stops (flattenAll trees) (Item.statementsAll items) :=
    fun t _ ht => hs t.stop ht
  exact ⟨trees', items', hgrows.invoked h.paired (h.flattenAll_eq ▸ h.ordered) hmarked, herase, hbody⟩

/-- Invocations stand behind closing parentheses. -/
theorem safe (h : Parses source tokens trees items)
    (hs : CallStops items stops)
    (context : Context) : Token.Safe stops context tokens := by
  obtain ⟨_, _, hexact, -⟩ := h.exact hs
  exact h.flattenAll_eq ▸ hexact.safe context

/-- Invocations stand behind calls of members. -/
theorem placed (h : Parses source tokens trees items)
    (hs : CallStops items stops) :
    Placed stops none none trees := by
  obtain ⟨_, _, hexact, -⟩ := h.exact hs
  exact hexact.placed none none

/-- The end of a statement is the end of a token. -/
theorem exists_stop (h : Parses source tokens trees items) {x : List Tree}
    (hx : x ∈ Item.statementsAll items) : ∃ token ∈ tokens, token.stop = stopOf x :=
  Sited.ends h.sited h.ordered x hx

/-- An invocation stands behind a closing parenthesis. -/
theorem closing_at (h : Parses source tokens trees items) (hs : CallStops items stops) {s : Nat}
    (hm : s ∈ stops) : ∃ a b, source = a ++ ')' :: b ∧ Text.size a + 1 = s := by
  obtain ⟨x, hx, -, rfl⟩ := hs s hm
  obtain ⟨token, ht, hstop⟩ := h.exists_stop hx
  have hkind := (h.safe hs .start).kind_eq token ht (hstop ▸ hm)
  have htext := (Token.Scans.iff.mpr h.scan).text_closeParen ht hkind
  obtain ⟨a, b, hab, hsize⟩ := Token.token_at h.scan ht
  refine ⟨a, b, by rw [hab, htext]; rfl, ?_⟩
  rw [hsize, ← hstop, Token.stop, htext]
  rfl

/-- **A program with invocations is read as the same program with invocations.** Its tokens are those
of the program with two more behind each of the calls, its trees have an empty group in parentheses
there, and its outline is the same but for the trees of statements. -/
theorem invoked (h : Parses source tokens trees items) (hn : stops.Nodup)
    (hs : CallStops items stops) :
    ∃ items', Text.Woven source (Text.weave (Rewrite.pieceAt stops) 0 source) ∧
      Parses (Text.weave (Rewrite.pieceAt stops) 0 source) (Token.invokedAll stops tokens)
        (Tree.invokedAll stops trees) items' ∧
      Item.eraseAll items' = Item.eraseAll items ∧
      Item.statementsAll items' = (Item.statementsAll items).map (Tree.invokedAll stops) := by
  obtain ⟨trees', items', ⟨rfl, hstatements, -, -⟩, herase, hbody⟩ := h.exact hs
  have hsafe := h.safe hs
  have hinvoked := flattenAll_invokedAll trees h.paired
    (by rw [h.flattenAll_eq]; exact (hsafe .start).kind_eq)
  rw [h.flattenAll_eq] at hinvoked
  obtain ⟨hwoven, hscan⟩ := Token.scan_weave h.scan (hsafe _) hn fun s hm => by
    obtain ⟨x, hx, -, rfl⟩ := hs s hm
    exact h.exists_stop hx
  refine ⟨items', hwoven, ⟨hscan, ?_, hbody⟩, herase, hstatements⟩
  rw [← hinvoked.1]
  exact ofTokens_flattenAll hinvoked.2

end Invoked

end Parses

end DeferredLog
