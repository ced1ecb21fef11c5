import DeferredLog.Tree.Build

/-!
# Paired delimiters

Trees whose groups stand between delimiters that fit and whose leaves are no delimiters. These are
the trees that tokens can be made into.

* `Tree.pairedAll_of_ofTokens`: the trees of a list of tokens are paired.
* `Tree.ofTokens_flattenAll`: paired trees are made of their own tokens again.
* `Tree.context_flattenAll`: behind paired trees the same braces and parentheses are open as before.
-/

namespace DeferredLog

namespace Tree

mutual

/-- Whether the delimiters of a tree inside a group with the delimiter `around` fit. -/
def Paired (around : Option Delimiter) : Tree → Prop
  | .leaf token => opened? token.kind = none ∧ closed? token.kind = none ∧
      (token.kind = .templateMiddle → around = some .template)
  | .group delimiter opening closing trees => opened? opening.kind = some delimiter ∧
      closed? closing.kind = some delimiter ∧ PairedAll (some delimiter) trees

/-- Whether the delimiters of all of some trees fit. -/
def PairedAll (around : Option Delimiter) : List Tree → Prop
  | [] => True
  | tree :: trees => tree.Paired around ∧ PairedAll around trees

end

theorem pairedAll_iff {around : Option Delimiter} {trees : List Tree} :
    PairedAll around trees ↔ ∀ tree ∈ trees, tree.Paired around := by
  induction trees with
  | nil => simp [PairedAll]
  | cons tree trees ih => simp [PairedAll, ih]

theorem pairedAll_append {around : Option Delimiter} {a b : List Tree} :
    PairedAll around (a ++ b) ↔ PairedAll around a ∧ PairedAll around b := by
  simp only [pairedAll_iff, List.forall_mem_append]

/-! ## Made of tokens -/

/-- The delimiter of the innermost open group. -/
def around (frames : List Frame) : Option Delimiter :=
  frames.head?.map (·.delimiter)

/-- Open groups whose delimiters fit. -/
def FramesPaired : List Frame → Prop
  | [] => True
  | frame :: frames => opened? frame.opening.kind = some frame.delimiter ∧
      PairedAll (around frames) frame.before.reverse ∧ FramesPaired frames

/-- What is pending, with delimiters that fit. -/
def Pending.Paired (pending : Pending) : Prop :=
  FramesPaired pending.frames ∧ PairedAll (around pending.frames) pending.current.reverse

theorem Pending.paired_push {pending pending' : Pending} {token : Token} (hp : pending.Paired)
    (h : pending.push token = .ok pending') : pending'.Paired := by
  obtain ⟨hframes, hcurrent⟩ := hp
  unfold Pending.push at h
  split at h
  · rename_i hopen
    cases h
    exact ⟨⟨hopen, hcurrent, hframes⟩, trivial⟩
  · rename_i hopen hclose
    split at h
    · cases h
    · rename_i frame frames hf
      split at h
      · rename_i hd
        cases h
        rw [hf] at hframes hcurrent
        obtain ⟨ha, hbefore, hframes⟩ := hframes
        refine ⟨hframes, ?_⟩
        rw [List.reverse_cons, pairedAll_append]
        exact ⟨hbefore, ⟨ha, hd ▸ hclose, hcurrent⟩, trivial⟩
      · cases h
  · rename_i hopen hclose
    split at h
    · cases h
    · rename_i hmiddle
      cases h
      refine ⟨hframes, ?_⟩
      rw [List.reverse_cons, pairedAll_append]
      refine ⟨hcurrent, ⟨hopen, hclose, fun hk => ?_⟩, trivial⟩
      simpa [hk, around] using hmiddle

theorem Pending.paired_run {pending : Pending} {tokens : List Token} {trees : List Tree}
    (hp : pending.Paired) (h : pending.run tokens = .ok trees) : PairedAll none trees := by
  induction tokens generalizing pending with
  | nil =>
    simp only [Pending.run, Pending.finish] at h
    split at h
    · rename_i hf
      cases h
      have := hp.2
      rwa [hf] at this
    · cases h
  | cons token tokens ih =>
    rw [Pending.run] at h
    split at h
    · cases h
    · rename_i hpush
      exact ih (Pending.paired_push hp hpush) h

/-- The trees of a list of tokens are paired. -/
theorem pairedAll_of_ofTokens {tokens : List Token} {trees : List Tree}
    (h : ofTokens tokens = .ok trees) : PairedAll none trees :=
  have hp : Pending.Paired ⟨[], []⟩ := ⟨trivial, trivial⟩
  Pending.paired_run hp h

/-! ## Made again -/

theorem Pending.push_leaf {frames : List Frame} {current : List Tree} {token : Token}
    (h : (leaf token).Paired (around frames)) :
    Pending.push ⟨frames, current⟩ token = .ok ⟨frames, .leaf token :: current⟩ := by
  obtain ⟨hopen, hclose, hmiddle⟩ := h
  have : (token.kind = .templateMiddle && frames.head?.map (·.delimiter) != some .template) = false := by
    by_cases hk : token.kind = .templateMiddle
    · simpa [hk, around] using hmiddle hk
    · simp [hk]
  simp [Pending.push, hopen, hclose, this]

theorem Pending.push_opening {frames : List Frame} {current : List Tree} {token : Token}
    {delimiter : Delimiter} (h : opened? token.kind = some delimiter) :
    Pending.push ⟨frames, current⟩ token = .ok ⟨⟨delimiter, token, current⟩ :: frames, []⟩ := by
  simp [Pending.push, h]

theorem Pending.push_closing {frames : List Frame} {before current : List Tree}
    {opening token : Token} {delimiter : Delimiter} (h : closed? token.kind = some delimiter) :
    Pending.push ⟨⟨delimiter, opening, before⟩ :: frames, current⟩ token =
      .ok ⟨frames, .group delimiter opening token current.reverse :: before⟩ := by
  have hopen : opened? token.kind = none := by
    revert h
    cases token.kind <;> simp [opened?, closed?]
  simp [Pending.push, h, hopen]

mutual

theorem Pending.run_flatten (frames : List Frame) (current : List Tree) (tree : Tree)
    (h : tree.Paired (around frames)) (tokens : List Token) :
    Pending.run ⟨frames, current⟩ (tree.flatten ++ tokens) =
      Pending.run ⟨frames, tree :: current⟩ tokens :=
  match tree with
  | .leaf token => by
    rw [Tree.flatten, List.singleton_append, Pending.run, Pending.push_leaf h]
  | .group delimiter opening closing trees => by
    obtain ⟨hopen, hclose, hinside⟩ := h
    have inside := Pending.run_flattenAll (⟨delimiter, opening, current⟩ :: frames) [] trees hinside
      ([closing] ++ tokens)
    rw [Tree.flatten, List.cons_append, List.append_assoc, Pending.run, Pending.push_opening hopen]
    dsimp only
    rw [inside, List.singleton_append, Pending.run, Pending.push_closing hclose]
    simp

theorem Pending.run_flattenAll (frames : List Frame) (current trees : List Tree)
    (h : PairedAll (around frames) trees) (tokens : List Token) :
    Pending.run ⟨frames, current⟩ (flattenAll trees ++ tokens) =
      Pending.run ⟨frames, trees.reverse ++ current⟩ tokens :=
  match trees with
  | [] => rfl
  | tree :: trees => by
    rw [Tree.flattenAll, List.append_assoc, Pending.run_flatten frames current tree h.1,
      Pending.run_flattenAll frames (tree :: current) trees h.2]
    simp

end

/-- Paired trees are made of their own tokens again. -/
theorem ofTokens_flattenAll {trees : List Tree} (h : PairedAll none trees) :
    ofTokens (flattenAll trees) = .ok trees := by
  have := Pending.run_flattenAll [] [] trees h []
  rw [List.append_nil] at this
  rw [ofTokens, this]
  simp [Pending.run, Pending.finish]

/-- A text has trees if it has tokens that make them. -/
theorem parse_eq_ok_iff {source : List Char} {trees : List Tree} : parse source = .ok trees ↔
    ∃ tokens, Token.scan source = .ok tokens ∧ ofTokens tokens = .ok trees := by
  unfold parse
  cases Token.scan source <;> simp

theorem parse_of_scan {source : List Char} {trees : List Tree}
    (hs : Token.scan source = .ok (flattenAll trees)) (hp : PairedAll none trees) : parse source = .ok trees :=
  parse_eq_ok_iff.mpr ⟨_, hs, ofTokens_flattenAll hp⟩

end Tree

/-! ## Contexts -/

/-- The context behind some tokens. -/
def Context.after (context : Context) (tokens : List Token) : Context :=
  tokens.foldl (fun context token => context.behind token.kind token.text) context

namespace Context

@[simp]
theorem after_nil (context : Context) : context.after [] = context := rfl

@[simp]
theorem after_cons (context : Context) (token : Token) (tokens : List Token) :
    context.after (token :: tokens) = (context.behind token.kind token.text).after tokens := rfl

@[simp]
theorem after_append (context : Context) (a b : List Token) :
    context.after (a ++ b) = (context.after a).after b :=
  List.foldl_append

end Context

namespace Tree

/-- Behind a token that is no delimiter the same delimiters are open. -/
theorem open_behind_leaf (context : Context) {kind : TokenKind} (text : String)
    (hopen : opened? kind = none) (hclose : closed? kind = none) :
    (context.behind kind text).braces = context.braces ∧
      (context.behind kind text).heads = context.heads := by
  revert hopen hclose
  cases kind <;>
    simp [opened?, closed?, Context.behind, Context.bracesBehind, Context.headsBehind]

/-- A closing delimiter undoes an opening one, if what is open between them is the same. -/
theorem open_behind_group {context context' : Context} {a b : TokenKind} {delimiter : Delimiter}
    {text text' : String} (ha : opened? a = some delimiter) (hb : closed? b = some delimiter)
    (hbraces : context'.braces = (context.behind a text).braces)
    (hheads : context'.heads = (context.behind a text).heads) :
    (context'.behind b text').braces = context.braces ∧
      (context'.behind b text').heads = context.heads := by
  revert ha hb hbraces hheads
  cases delimiter <;> cases a <;> simp only [opened?, reduceCtorEq, false_implies, true_implies,
    Option.some.injEq] <;> cases b <;>
    simp_all [closed?, Context.behind, Context.bracesBehind, Context.headsBehind]

mutual

theorem context_flatten (context : Context) {around : Option Delimiter} (tree : Tree)
    (h : tree.Paired around) :
    (context.after tree.flatten).braces = context.braces ∧
      (context.after tree.flatten).heads = context.heads :=
  match tree with
  | .leaf token => open_behind_leaf context token.text h.1 h.2.1
  | .group _ opening closing trees => by
    have inside := context_flattenAll (context.behind opening.kind opening.text) trees h.2.2
    rw [Tree.flatten, Context.after_cons, Context.after_append]
    exact open_behind_group h.1 h.2.1 inside.1 inside.2

/-- Behind paired trees the same braces and parentheses are open as before. -/
theorem context_flattenAll (context : Context) {around : Option Delimiter} (trees : List Tree)
    (h : PairedAll around trees) :
    (context.after (flattenAll trees)).braces = context.braces ∧
      (context.after (flattenAll trees)).heads = context.heads :=
  match trees with
  | [] => ⟨rfl, rfl⟩
  | tree :: trees => by
    have first := context_flatten context tree h.1
    have rest := context_flattenAll (context.after tree.flatten) trees h.2
    rw [Tree.flattenAll, Context.after_append]
    exact ⟨rest.1.trans first.1, rest.2.trans first.2⟩

end

end Tree

end DeferredLog
