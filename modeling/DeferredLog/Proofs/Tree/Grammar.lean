import DeferredLog.Proofs.Tree.Paired

/-!
# The grammar of nested delimiters

Which tokens can be made into trees is told by a grammar: a group stands between an opening token and the
closing token of its own kind, and a piece between two substitutions of a template literal stands directly
inside the group of one. Where some tokens break off, the delimiters that are open there are told by the same
grammar, with a well nested run of tokens behind each.

* `Tree.nested_iff`: well nested tokens are those of paired trees.
* `Tree.Opens.viable`, `Tree.opens_of_paired`: what is open behind some tokens can be closed, and is what the
  stack of open groups holds.
* `Tree.ofTokens_nested`: well nested tokens are made into their trees, and where tokens are not well nested
  the fault is at the first token with which they cannot go on, or at the innermost delimiter left open.
-/

namespace DeferredLog

/-! ## Well nested tokens -/

namespace Delimiter

/-- The kind of the token that opens a group. -/
def opening : Delimiter → TokenKind
  | paren => .openParen
  | bracket => .openBracket
  | brace => .openBrace
  | template => .templateHead

/-- The kind of the token that closes a group. -/
def closing : Delimiter → TokenKind
  | paren => .closeParen
  | bracket => .closeBracket
  | brace => .closeBrace
  | template => .templateTail

end Delimiter

namespace Tree

theorem opened?_eq_some_iff {kind : TokenKind} {delimiter : Delimiter} :
    opened? kind = some delimiter ↔ kind = delimiter.opening := by
  cases kind <;> cases delimiter <;> decide

theorem closed?_eq_some_iff {kind : TokenKind} {delimiter : Delimiter} :
    closed? kind = some delimiter ↔ kind = delimiter.closing := by
  cases kind <;> cases delimiter <;> decide

theorem opened?_eq_none_iff {kind : TokenKind} :
    opened? kind = none ↔ ∀ delimiter : Delimiter, kind ≠ delimiter.opening := by
  simp only [Option.eq_none_iff_forall_ne_some, ne_eq, opened?_eq_some_iff]

theorem closed?_eq_none_iff {kind : TokenKind} :
    closed? kind = none ↔ ∀ delimiter : Delimiter, kind ≠ delimiter.closing := by
  simp only [Option.eq_none_iff_forall_ne_some, ne_eq, closed?_eq_some_iff]

/-- `Nested around tokens`: the tokens are well nested inside a group with the delimiter `around`, or outside
of all groups. -/
inductive Nested : Option Delimiter → List Token → Prop
  | nil {around} : Nested around []
  | leaf {around token tokens} : (∀ delimiter : Delimiter, token.kind ≠ delimiter.opening) →
      (∀ delimiter : Delimiter, token.kind ≠ delimiter.closing) →
      (token.kind = .templateMiddle → around = some .template) →
      Nested around tokens → Nested around (token :: tokens)
  | group {around delimiter opening inside closing tokens} : opening.kind = delimiter.opening →
      Nested (some delimiter) inside → closing.kind = delimiter.closing →
      Nested around tokens → Nested around (opening :: (inside ++ closing :: tokens))

mutual

theorem nested_flatten {around : Option Delimiter} (tree : Tree) (h : tree.Paired around) {tokens : List Token}
    (ht : Nested around tokens) : Nested around (tree.flatten ++ tokens) :=
  match tree with
  | .leaf token => .leaf (opened?_eq_none_iff.mp h.1) (closed?_eq_none_iff.mp h.2.1) h.2.2 ht
  | .group delimiter opening closing trees => by
    obtain ⟨hopen, hclose, hinside⟩ := h
    have hgroup := Nested.group (opened?_eq_some_iff.mp hopen) (nested_flattenAll trees hinside)
      (closed?_eq_some_iff.mp hclose) ht
    rw [Tree.flatten, List.cons_append, List.append_assoc]
    exact hgroup

theorem nested_flattenAll {around : Option Delimiter} (trees : List Tree) (h : PairedAll around trees) :
    Nested around (flattenAll trees) :=
  match trees with
  | [] => .nil
  | tree :: trees => nested_flatten tree h.1 (nested_flattenAll trees h.2)

end

/-- **Well nested tokens are those of paired trees.** -/
theorem nested_iff {around : Option Delimiter} {tokens : List Token} :
    Nested around tokens ↔ ∃ trees, PairedAll around trees ∧ flattenAll trees = tokens := by
  constructor
  · intro h
    induction h with
    | nil => exact ⟨[], trivial, rfl⟩
    | @leaf around token tokens hopen hclose hmiddle _ ih =>
      obtain ⟨trees, hpaired, rfl⟩ := ih
      have hleaf : (Tree.leaf token).Paired around :=
        ⟨opened?_eq_none_iff.mpr hopen, closed?_eq_none_iff.mpr hclose, hmiddle⟩
      exact ⟨.leaf token :: trees, ⟨hleaf, hpaired⟩, rfl⟩
    | @group around delimiter opening inside closing tokens hopen _ hclose _ ih₁ ih₂ =>
      obtain ⟨trees₁, hpaired₁, rfl⟩ := ih₁
      obtain ⟨trees₂, hpaired₂, rfl⟩ := ih₂
      have hgroup : (Tree.group delimiter opening closing trees₁).Paired around :=
        ⟨opened?_eq_some_iff.mpr hopen, closed?_eq_some_iff.mpr hclose, hpaired₁⟩
      exact ⟨_ :: trees₂, ⟨hgroup, hpaired₂⟩, by simp [flattenAll, Tree.flatten]⟩
  · rintro ⟨trees, hpaired, rfl⟩
    exact nested_flattenAll trees hpaired

theorem Nested.append {around : Option Delimiter} {a b : List Token} (ha : Nested around a)
    (hb : Nested around b) : Nested around (a ++ b) := by
  induction ha with
  | nil => exact hb
  | leaf hopen hclose hmiddle _ ih => exact .leaf hopen hclose hmiddle (ih hb)
  | group hopen hinside hclose _ _ ih =>
    rw [List.cons_append, List.append_assoc]
    exact .group hopen hinside hclose (ih hb)

/-! ## Open delimiters -/

/-- `Opens stack tokens`: behind the tokens the delimiters in `stack` are open, the innermost first, each
with the token that opened it. -/
inductive Opens : List (Delimiter × Token) → List Token → Prop
  | outside {tokens} : Nested none tokens → Opens [] tokens
  | inside {stack before delimiter opening tokens} : Opens stack before → opening.kind = delimiter.opening →
      Nested (some delimiter) tokens → Opens ((delimiter, opening) :: stack) (before ++ opening :: tokens)

/-- Whether some tokens can go on so that they are well nested. -/
def Viable (tokens : List Token) : Prop :=
  ∃ more, Nested none (tokens ++ more)

/-- The delimiter of the innermost open group, if there is one. -/
def innermost (stack : List (Delimiter × Token)) : Option Delimiter :=
  stack.head?.map (·.1)

/-- `Refuses stack kind cause`: where the delimiters in `stack` are open, a token of that kind cannot stand. -/
inductive Refuses : List (Delimiter × Token) → TokenKind → Cause → Prop
  /-- A closing token where nothing is open. -/
  | unexpected (delimiter : Delimiter) : Refuses [] delimiter.closing (.unexpectedClose delimiter)
  /-- A closing token of another kind than the innermost open delimiter. -/
  | mismatched {delimiter closing : Delimiter} {opening stack} : delimiter ≠ closing →
      Refuses ((delimiter, opening) :: stack) closing.closing (.mismatchedClose delimiter closing)
  /-- A piece between two substitutions that is not directly inside a template literal. -/
  | middle {stack} : innermost stack ≠ some .template →
      Refuses stack .templateMiddle (.unexpectedClose .brace)

/-- `Diagnosed tokens fault`: what is wrong with tokens that are not well nested. -/
inductive Diagnosed (tokens : List Token) : Fault → Prop
  /-- The first token with which they cannot go on. -/
  | refused {front token back stack cause} : tokens = front ++ token :: back → Viable front →
      ¬ Viable (front ++ [token]) → Opens stack front → Refuses stack token.kind cause →
      Diagnosed tokens ⟨cause, token.start⟩
  /-- The innermost delimiter that is left open, where they could go on. -/
  | unclosed {delimiter opening stack} : Viable tokens → Opens ((delimiter, opening) :: stack) tokens →
      Diagnosed tokens ⟨.unclosed delimiter, opening.start⟩

variable {stack : List (Delimiter × Token)} {front tokens : List Token} {pending : Pending}

/-- Well nested tokens leave what is open as it is. -/
theorem Opens.append (h : Opens stack front) (ht : Nested (innermost stack) tokens) :
    Opens stack (front ++ tokens) := by
  cases h with
  | outside hfront => exact .outside (hfront.append ht)
  | inside hbefore hopen hinside =>
    rw [List.append_assoc, List.cons_append]
    exact .inside hbefore hopen (hinside.append ht)

/-- An open delimiter was opened by a token of its kind. -/
theorem Opens.mem {delimiter : Delimiter} {opening : Token}
    (h : Opens ((delimiter, opening) :: stack) front) : opening ∈ front ∧ opening.kind = delimiter.opening := by
  cases h with
  | inside _ hopen => exact ⟨by simp, hopen⟩

/-- What is open can be closed, the innermost delimiter first. -/
theorem Opens.viable (h : Opens stack front) : Viable front := by
  induction stack generalizing front with
  | nil =>
    cases h with
    | outside h => exact ⟨[], by rwa [List.append_nil]⟩
  | cons _ stack ih =>
    cases h with
    | @inside _ before delimiter opening tokens hbefore hopen hinside =>
      let last : Token := ⟨delimiter.closing, "", 0, false⟩
      have hgroup : Nested (innermost stack) (opening :: (tokens ++ [last])) := .group hopen hinside rfl .nil
      obtain ⟨more, hmore⟩ := ih (hbefore.append hgroup)
      exact ⟨last :: more, by simpa using hmore⟩

/-! ## The stack of open groups -/

/-- The delimiters of the open groups, each with the token that opened it. -/
def Pending.opened (pending : Pending) : List (Delimiter × Token) :=
  pending.frames.map fun frame => (frame.delimiter, frame.opening)

theorem around_eq_innermost (pending : Pending) : around pending.frames = innermost pending.opened := by
  rw [around, innermost, Pending.opened, List.head?_map, Option.map_map]
  rfl

theorem opens_of_framesPaired {frames : List Frame} {trees : List Tree} (hf : FramesPaired frames)
    (ht : PairedAll (around frames) trees) :
    Opens (frames.map fun frame => (frame.delimiter, frame.opening)) (framesFlatten frames ++ flattenAll trees) := by
  induction frames generalizing trees with
  | nil => exact .outside (nested_flattenAll trees ht)
  | cons frame frames ih =>
    obtain ⟨hopen, hbefore, hframes⟩ := hf
    have hinside := Opens.inside (ih hframes hbefore) (opened?_eq_some_iff.mp hopen) (nested_flattenAll trees ht)
    rw [framesFlatten, List.append_assoc, List.singleton_append]
    exact hinside

/-- Behind pending tokens those delimiters are open that the stack holds. -/
theorem opens_of_paired (h : pending.Paired) : Opens pending.opened pending.flatten :=
  opens_of_framesPaired h.1 h.2

/-- **Behind some tokens the stack holds what is open there.** The run goes on from it. -/
theorem Opens.exists_pending (h : Opens stack front) : ∃ pending : Pending, pending.opened = stack ∧
    pending.Paired ∧ pending.flatten = front ∧ ∀ back, ofTokens (front ++ back) = pending.run back := by
  induction h with
  | outside h =>
    obtain ⟨trees, hpaired, rfl⟩ := nested_iff.mp h
    refine ⟨⟨[], trees.reverse⟩, rfl, ⟨trivial, ?_⟩, by simp [Pending.flatten, framesFlatten], fun back => ?_⟩
    · rwa [List.reverse_reverse]
    · rw [ofTokens, Pending.run_flattenAll [] [] trees hpaired, List.append_nil]
  | @inside stack before delimiter opening tokens _ hopen hinside ih =>
    obtain ⟨⟨frames, current⟩, rfl, ⟨hframes, hcurrent⟩, rfl, hrun⟩ := ih
    obtain ⟨trees, hpaired, rfl⟩ := nested_iff.mp hinside
    have hopened := opened?_eq_some_iff.mpr hopen
    refine ⟨⟨⟨delimiter, opening, current⟩ :: frames, trees.reverse⟩, rfl, ⟨⟨hopened, hcurrent, hframes⟩, ?_⟩, ?_,
      fun back => ?_⟩
    · rwa [List.reverse_reverse]
    · simp [Pending.flatten, framesFlatten]
    · have hinside : PairedAll (around (⟨delimiter, opening, current⟩ :: frames)) trees := hpaired
      rw [List.append_assoc, List.cons_append, hrun, Pending.run, Pending.push_opening hopened]
      dsimp only
      rw [Pending.run_flattenAll _ [] trees hinside, List.append_nil]

/-! ## Faults -/

theorem Pending.refuses_of_push {token : Token} {fault : Fault} (h : pending.push token = .error fault) :
    Refuses pending.opened token.kind fault.cause ∧ fault.offset = token.start := by
  obtain ⟨frames, current⟩ := pending
  unfold push at h
  split at h
  · cases h
  · rename_i closing _ hclose
    rw [closed?_eq_some_iff.mp hclose]
    split at h
    · rename_i hnil
      cases h
      obtain rfl : frames = [] := hnil
      exact ⟨.unexpected closing, rfl⟩
    · rename_i frame more hcons
      split at h
      · cases h
      · rename_i hne
        cases h
        obtain rfl : frames = frame :: more := hcons
        exact ⟨.mismatched hne, rfl⟩
  · split at h
    · rename_i hmiddle
      cases h
      simp only [Bool.and_eq_true, decide_eq_true_eq, bne_iff_ne] at hmiddle
      rw [hmiddle.1]
      exact ⟨.middle (by rw [← around_eq_innermost]; exact hmiddle.2), rfl⟩
    · cases h

/-- A token is refused where it cannot stand. -/
theorem Pending.push_of_refuses {token : Token} {cause : Cause}
    (h : Refuses pending.opened token.kind cause) : pending.push token = .error ⟨cause, token.start⟩ := by
  obtain ⟨frames, current⟩ := pending
  generalize hstack : Pending.opened ⟨frames, current⟩ = stack at h
  generalize hkind : token.kind = kind at h
  cases h with
  | unexpected delimiter =>
    obtain rfl := List.map_eq_nil_iff.mp hstack
    rw [push]
    cases delimiter <;> rw [hkind] <;> rfl
  | @mismatched delimiter closing opening stack hne =>
    obtain ⟨frame, frames, rfl, hframe, -⟩ := List.map_eq_cons_iff.mp hstack
    obtain ⟨rfl, -⟩ := Prod.mk.inj hframe
    rw [push]
    cases closing <;> rw [hkind] <;> exact if_neg hne
  | middle hne =>
    rw [← hstack, ← around_eq_innermost] at hne
    rw [push, hkind]
    exact if_pos (by simpa [around] using hne)

/-- A run fails at a token that is refused, or at its end at the innermost open group. -/
theorem Pending.run_eq_error (hp : pending.Paired) {fault : Fault} (h : pending.run tokens = .error fault) :
    ∃ (front back : List Token) (pending' : Pending), tokens = front ++ back ∧ pending'.Paired ∧
      pending'.flatten = pending.flatten ++ front ∧
      ((∃ token more, back = token :: more ∧ pending'.push token = .error fault) ∨
        (back = [] ∧ pending'.finish = .error fault)) := by
  induction tokens generalizing pending with
  | nil => exact ⟨[], [], pending, rfl, hp, by simp, .inr ⟨rfl, h⟩⟩
  | cons token tokens ih =>
    rw [Pending.run] at h
    split at h
    · rename_i hpush
      cases h
      exact ⟨[], token :: tokens, pending, rfl, hp, by simp, .inl ⟨token, tokens, rfl, hpush⟩⟩
    · rename_i hpush
      obtain ⟨front, back, pending', rfl, hp', hflat, hfault⟩ := ih (paired_push hp hpush) h
      refine ⟨token :: front, back, pending', rfl, hp', ?_, hfault⟩
      rw [hflat, flatten_push hpush, List.append_assoc, List.singleton_append]

theorem ofTokens_eq_ok_iff {trees : List Tree} :
    ofTokens tokens = .ok trees ↔ PairedAll none trees ∧ flattenAll trees = tokens := by
  constructor
  · exact fun h => ⟨pairedAll_of_ofTokens h, ofTokens_flatten h⟩
  · rintro ⟨hpaired, rfl⟩
    exact ofTokens_flattenAll hpaired

/-- Tokens cannot be made into trees if one of them is refused where it stands, whatever follows it. -/
theorem Opens.ofTokens_refused (h : Opens stack front) {token : Token} {cause : Cause}
    (hr : Refuses stack token.kind cause) (back : List Token) :
    ofTokens (front ++ token :: back) = .error ⟨cause, token.start⟩ := by
  obtain ⟨pending, rfl, -, -, hrun⟩ := h.exists_pending
  rw [hrun, Pending.run, Pending.push_of_refuses hr]

theorem Opens.not_viable (h : Opens stack front) {token : Token} {cause : Cause}
    (hr : Refuses stack token.kind cause) : ¬ Viable (front ++ [token]) := by
  rintro ⟨back, hnested⟩
  obtain ⟨trees, htrees⟩ := nested_iff.mp hnested
  have hok := ofTokens_eq_ok_iff.mpr htrees
  rw [List.append_assoc, List.singleton_append, h.ofTokens_refused hr] at hok
  cases hok

/-- Tokens cannot be made into trees if a delimiter is left open. -/
theorem Opens.ofTokens_unclosed {delimiter : Delimiter} {opening : Token}
    (h : Opens ((delimiter, opening) :: stack) tokens) :
    ofTokens tokens = .error ⟨.unclosed delimiter, opening.start⟩ := by
  obtain ⟨⟨frames, current⟩, hstack, -, -, hrun⟩ := h.exists_pending
  obtain ⟨frame, frames, rfl, hframe, -⟩ := List.map_eq_cons_iff.mp hstack
  obtain ⟨rfl, rfl⟩ := Prod.mk.inj hframe
  rw [← List.append_nil tokens, hrun]
  rfl

theorem diagnosed_of_ofTokens {fault : Fault} (h : ofTokens tokens = .error fault) : Diagnosed tokens fault := by
  have hstart : Pending.Paired ⟨[], []⟩ := ⟨trivial, trivial⟩
  obtain ⟨front, back, pending, rfl, hp, hflat, hfault⟩ := Pending.run_eq_error hstart h
  have hfront : pending.flatten = front := by simpa [Pending.flatten, framesFlatten, flattenAll] using hflat
  have hopens := opens_of_paired hp
  rw [hfront] at hopens
  rcases hfault with ⟨token, more, rfl, hpush⟩ | ⟨rfl, hfinish⟩
  · obtain ⟨hrefuses, hoffset⟩ := Pending.refuses_of_push hpush
    rw [show fault = ⟨fault.cause, token.start⟩ by rw [← hoffset]]
    exact .refused rfl hopens.viable (hopens.not_viable hrefuses) hopens hrefuses
  · rw [Pending.finish] at hfinish
    split at hfinish
    · cases hfinish
    · rename_i frame frames hframes
      cases hfinish
      rw [Pending.opened, hframes, List.map_cons] at hopens
      rw [List.append_nil]
      exact .unclosed hopens.viable hopens

/-- Tokens that do not pair up have their fault where one of them starts. -/
theorem exists_token_of_ofTokens {fault : Fault} (h : ofTokens tokens = .error fault) :
    ∃ token ∈ tokens, token.start = fault.offset := by
  cases diagnosed_of_ofTokens h with
  | @refused front token back stack cause hcut => exact ⟨token, by simp [hcut], rfl⟩
  | unclosed _ hopens => exact ⟨_, hopens.mem.1, rfl⟩

theorem ofTokens_of_diagnosed {fault : Fault} (h : Diagnosed tokens fault) : ofTokens tokens = .error fault := by
  cases h with
  | refused hcut _ _ hopens hrefuses =>
    rw [hcut]
    exact hopens.ofTokens_refused hrefuses _
  | unclosed _ hopens => exact hopens.ofTokens_unclosed

/-- **Tokens are made into trees exactly if they are well nested**, and the trees are the ones with these tokens
in order. Otherwise the fault is at the first token with which they cannot go on so that they are well nested,
or if there is none at the innermost delimiter that is left open. -/
theorem ofTokens_nested (tokens : List Token) :
    ((∃ trees, ofTokens tokens = .ok trees) ↔ Nested none tokens) ∧
      (∀ trees, ofTokens tokens = .ok trees ↔ PairedAll none trees ∧ flattenAll trees = tokens) ∧
      ∀ fault, ofTokens tokens = .error fault ↔ Diagnosed tokens fault := by
  refine ⟨?_, fun _ => ofTokens_eq_ok_iff, fun _ => ⟨diagnosed_of_ofTokens, ofTokens_of_diagnosed⟩⟩
  simp only [ofTokens_eq_ok_iff, nested_iff]

end Tree

end DeferredLog
