import Mathlib.Data.List.Nodup
import DeferredLog.Proofs.Token.Locality
import DeferredLog.Rewrite

/-!
# The tokens of a text with invocations

An invocation is the text `()` inserted behind a closing parenthesis. A text with invocations has the
tokens of the text with two more behind each of those parentheses, and every other token keeps its
kind, its text and the line break before it.

* `Rewrite.shift` says where an offset goes.
* `Token.Scans.invoked`: the two texts are scanned in lockstep, as long as no invocation stands behind
  the head of a statement, where a slash would start a regular expression.
-/

namespace DeferredLog

open Text (Woven weave weaveRest)

namespace Rewrite

/-! ## Offsets -/

/-- What is inserted at an offset. -/
def pieceAt (stops : List Nat) (offset : Nat) : List Char :=
  if offset ∈ stops then invocation else []

/-- Where a character goes that starts at an offset. -/
def shift (stops : List Nat) (offset : Nat) : Nat :=
  offset + 2 * stops.countP (· ≤ offset)

variable {stops : List Nat} {a b : Nat}

theorem pieceAt_of_notMem (h : a ∉ stops) : pieceAt stops a = [] :=
  if_neg h

theorem pieceAt_of_mem (h : a ∈ stops) : pieceAt stops a = invocation :=
  if_pos h

/-- Between two offsets without an insertion the distance stays the same. -/
theorem shift_of_none (hle : a ≤ b) (h : ∀ s ∈ stops, s ≤ a ∨ b < s) :
    shift stops b = shift stops a + (b - a) := by
  have hc : stops.countP (· ≤ b) = stops.countP (· ≤ a) :=
    List.countP_congr fun s hs => by
      have := h s hs
      simp only [decide_eq_true_eq]
      omega
  rw [shift, shift, hc]
  omega

theorem countP_le_eq (hlt : a < b) (h : ∀ s ∈ stops, s ≤ a ∨ b ≤ s) :
    stops.countP (· ≤ b) = stops.countP (· ≤ a) + stops.count b := by
  induction stops with
  | nil => rfl
  | cons s stops ih =>
    have := h s List.mem_cons_self
    rw [List.countP_cons, List.countP_cons, List.count_cons,
      ih fun s hs => h s (List.mem_cons_of_mem _ hs)]
    simp only [decide_eq_true_eq, beq_iff_eq]
    split <;> split <;> split <;> omega

/-- Past an insertion the distance grows by two. -/
theorem shift_of_mem (hlt : a < b) (h : ∀ s ∈ stops, s ≤ a ∨ b ≤ s)
    (hn : stops.Nodup) (hm : b ∈ stops) :
    shift stops b = shift stops a + (b - a) + 2 := by
  rw [shift, shift, countP_le_eq hlt h, List.count_eq_one_of_mem hn hm]
  omega

/-- Offsets stay in order. -/
theorem shift_lt_shift (h : a < b) : shift stops a < shift stops b := by
  have : stops.countP (· ≤ a) ≤ stops.countP (· ≤ b) :=
    List.countP_mono_left fun s _ hs => by
      simp only [decide_eq_true_eq] at *
      omega
  unfold shift
  omega

end Rewrite

namespace Token

open Rewrite (shift pieceAt invocation)

/-! ## Tokens -/

/-- A token where the insertions before it move it. -/
def moved (stops : List Nat) (token : Token) : Token :=
  { token with start := shift stops token.start }

/-- The parenthesis that opens behind a token. -/
def opening (stops : List Nat) (token : Token) : Token :=
  ⟨.openParen, "(", (token.moved stops).stop, false⟩

/-- The parenthesis that closes again. -/
def closing (stops : List Nat) (token : Token) : Token :=
  ⟨.closeParen, ")", (token.moved stops).stop + 1, false⟩

/-- A token, and the invocation behind it if it ends at one of the offsets. -/
def invoked (stops : List Nat) (token : Token) : List Token :=
  if token.stop ∈ stops then [token.moved stops, token.opening stops, token.closing stops]
  else [token.moved stops]

/-- Tokens with the invocations behind them. -/
def invokedAll (stops : List Nat) (tokens : List Token) : List Token :=
  tokens.flatMap (invoked stops)

@[simp]
theorem invokedAll_nil (stops : List Nat) : invokedAll stops [] = [] := rfl

@[simp]
theorem invokedAll_cons (stops : List Nat) (token : Token) (tokens : List Token) :
    invokedAll stops (token :: tokens) = token.invoked stops ++ invokedAll stops tokens := rfl

@[simp]
theorem invokedAll_append (stops : List Nat) (a b : List Token) :
    invokedAll stops (a ++ b) = invokedAll stops a ++ invokedAll stops b :=
  List.flatMap_append

/-- An invocation is harmless behind each token that ends at one of the offsets: it is a closing
parenthesis that ends an operand. -/
def Safe (stops : List Nat) : Context → List Token → Prop
  | _, [] => True
  | context, token :: tokens =>
    (token.stop ∈ stops → token.kind = .closeParen ∧ context.heads.head? ≠ some true) ∧
      Safe stops (context.behind token.kind token.text) tokens

/-- Behind an invocation the context is the one before it. -/
theorem behind_invocation {context : Context} (h : context.left = .operand) :
    (context.behind .openParen "(").behind .closeParen ")" = context := by
  obtain ⟨left, braces, heads⟩ := context
  cases h
  rfl

theorem left_behind_closeParen {context : Context} (h : context.heads.head? ≠ some true)
    (text : String) : (context.behind .closeParen text).left = .operand := by
  simp [Context.behind, Context.leftOf, h]

theorem read_paren (context : Context) (cs : List Char) :
    Lexeme.read context '(' cs = .ok ⟨.openParen, ['('], cs⟩ ∧
      Lexeme.read context ')' cs = .ok ⟨.closeParen, [')'], cs⟩ := by
  have hopen : Text.isNameStart '(' = false := by decide +kernel
  have hclose : Text.isNameStart ')' = false := by decide +kernel
  constructor <;> simp [Lexeme.read, hopen, hclose, Lexeme.delimiterKind]

/-- Only the delimiter itself is read as a lexeme of its kind. -/
theorem read_delimiter {context : Context} {c d : Char} {cs : List Char} {lexeme : Lexeme}
    (h : Lexeme.read context c cs = .ok lexeme) (hd : Lexeme.delimiterKind d = some lexeme.kind) :
    c = d ∧ lexeme.text = [d] := by
  have hkinds := Lexeme.delimiterKind_eq_some hd
  cases Lexeme.readAs_of_read h with
  | @opening substitution => cases substitution <;> simp at hkinds
  | @piece substitution => cases substitution <;> simp at hkinds
  | string => simp at hkinds
  | regex => simp at hkinds
  | number => simp [Lexeme.number] at hkinds
  | ident => simp [Lexeme.ident] at hkinds
  | delimiter _ hc =>
    have hsame : c = d := by
      rcases Lexeme.delimiterKind_eq_some hc with h | h | h | h | h | h <;>
        obtain ⟨rfl, rfl⟩ := h <;> simp_all
    exact ⟨hsame, by rw [hsame]⟩
  | punct => simp at hkinds

theorem skip_paren (offset : Nat) (cs : List Char) :
    Gap.skip .blank offset ('(' :: cs) = .ok ([], '(' :: cs) ∧
      Gap.skip .blank offset (')' :: cs) = .ok ([], ')' :: cs) := by
  have hopen : Gap.isSpace '(' = false := by decide +kernel
  have hclose : Gap.isSpace ')' = false := by decide +kernel
  constructor <;> simp [Gap.skip, hopen, hclose]

/-! ## Scanning -/

/-- The text of a closing parenthesis. -/
theorem Scans.text_closeParen {context : Context} {offset : Nat} {cs : List Char}
    {tokens : List Token} (h : Scans context offset cs tokens) {token : Token} (ht : token ∈ tokens)
    (hk : token.kind = .closeParen) : token.text = ")" := by
  induction h with
  | done => cases ht
  | @token context offset gap c more kind rest tokens _ hread _ ih =>
    rcases List.mem_cons.mp ht with rfl | ht
    · have htext : c :: more = [')'] := (read_delimiter hread (by rw [show kind = _ from hk]; rfl)).2
      simp only [ofLexeme]
      rw [htext]
    · exact ih ht

variable {stops : List Nat} {context : Context} {offset : Nat} {cs : List Char} {tokens : List Token}

/-- A token of one character without a gap before it. -/
theorem Scans.char {c : Char} {kind : TokenKind} {rest : List Char}
    (hgap : Gap.skip .blank offset (c :: rest) = .ok ([], c :: rest))
    (hread : Lexeme.read context c rest = .ok ⟨kind, [c], rest⟩)
    (h : Scans (context.behind kind (String.ofList [c])) (offset + c.utf8Size) rest tokens) :
    Scans context offset (c :: rest) (⟨kind, String.ofList [c], offset, false⟩ :: tokens) := by
  have h' : Scans (context.behind kind (String.ofList [c]))
      (offset + Text.size [] + Text.size [c]) rest tokens := by simpa using h
  exact .token hgap hread h'

/-- An invocation is scanned where an operand ends. -/
theorem Scans.invocation (h : Scans context (offset + 2) cs tokens) (hl : context.left = .operand) :
    Scans context offset (invocation ++ cs)
      (⟨.openParen, "(", offset, false⟩ :: ⟨.closeParen, ")", offset + 1, false⟩ :: tokens) := by
  rw [← behind_invocation hl] at h
  exact .char (skip_paren _ _).1 (read_paren _ _).1 (.char (skip_paren _ _).2 (read_paren _ _).2 h)

/-- The gap before a lexeme ends where the gap before the same lexeme ends in a woven text. -/
theorem skip_of_woven {gap : List Char} {c : Char} {more rest rest' : List Char}
    (h : Gap.skip .blank offset (gap ++ (c :: more ++ rest)) = .ok (gap, c :: more ++ rest))
    (hw : c = '/' → Woven rest rest') (offset' : Nat) :
    Gap.skip .blank offset' (gap ++ (c :: more ++ rest')) = .ok (gap, c :: more ++ rest') := by
  refine Gap.skip_congr h (Gap.Mode.like_refl .blank) offset' rfl fun hc => ?_
  exact Lexeme.head?_append_of_head? (hw (by simpa using hc)).head?_eq more

/-- **A text with invocations is scanned in lockstep with the text.** -/
theorem Scans.invoked (h : Scans context offset cs tokens) (hs : Safe stops context tokens)
    (hn : stops.Nodup) (hm : ∀ s ∈ stops, s ≤ offset ∨ ∃ token ∈ tokens, token.stop = s) :
    Woven cs (weaveRest (pieceAt stops) offset cs) ∧
      Scans context (shift stops offset) (weaveRest (pieceAt stops) offset cs)
        (invokedAll stops tokens) := by
  induction h with
  | @done context offset cs hgap =>
    have hself : weaveRest (pieceAt stops) offset cs = cs :=
      Text.weaveRest_eq_self fun o ho _ => Rewrite.pieceAt_of_notMem fun hmem => by
        rcases hm o hmem with h | ⟨_, ht, -⟩
        · omega
        · cases ht
    have hgap' : Gap.skip .blank (shift stops offset) (cs ++ []) = .ok (cs, []) :=
      Gap.skip_congr hgap (Gap.Mode.like_refl .blank) _ rfl (by simp)
    rw [List.append_nil] at hgap'
    rw [hself]
    exact ⟨.refl _, .done hgap'⟩
  | @token context offset gap c more kind rest tokens hgap hread h ih =>
    obtain ⟨hhere, hs⟩ := hs
    rw [stop_ofLexeme] at hhere
    have hsize : Text.size (gap ++ c :: more) = Text.size gap + Text.size (c :: more) := by simp
    have hpos := c.utf8Size_pos
    have hlater := h.start_le
    have hordered := h.ordered
    -- Insertions lie before the token, directly behind it, or behind a later one.
    have hwhere : ∀ s ∈ stops, s ≤ offset ∨ offset + Text.size gap + Text.size (c :: more) ≤ s := by
      intro s hmem
      rcases hm s hmem with h | ⟨token, ht, rfl⟩
      · exact .inl h
      · rcases List.mem_cons.mp ht with rfl | ht
        · exact .inr (by rw [stop_ofLexeme])
        · have := hlater token ht
          have := hordered.nonempty token ht
          exact .inr (by omega)
    obtain ⟨hw, hscan⟩ := ih hs fun s hmem => by
      rcases hm s hmem with h | ⟨token, ht, rfl⟩
      · exact .inl (by omega)
      · rcases List.mem_cons.mp ht with rfl | ht
        · exact .inl (by rw [stop_ofLexeme])
        · exact .inr ⟨token, ht, rfl⟩
    have hstart : shift stops (offset + Text.size gap) = shift stops offset + Text.size gap := by
      rw [Rewrite.shift_of_none (a := offset) (by omega) fun s hmem => by
        have := hwhere s hmem
        rw [Text.size_cons] at this
        omega]
      omega
    have hweave : weaveRest (pieceAt stops) offset (gap ++ (c :: more ++ rest)) =
        gap ++ (c :: more ++
          (pieceAt stops (offset + Text.size gap + Text.size (c :: more)) ++
            weaveRest (pieceAt stops) (offset + Text.size gap + Text.size (c :: more)) rest)) := by
      rw [← List.append_assoc, Text.weaveRest_append (by simp) rest fun o h₁ h₂ =>
        Rewrite.pieceAt_of_notMem fun hmem => by
          have := hwhere o hmem
          rw [hsize] at h₂
          omega, hsize, ← Nat.add_assoc, List.append_assoc]
    have hmoved : (ofLexeme offset gap ⟨kind, c :: more, rest⟩).moved stops =
        ofLexeme (shift stops offset) gap ⟨kind, c :: more, rest⟩ := by
      simp only [moved, ofLexeme, hstart]
    rw [hweave, invokedAll_cons, Token.invoked, hmoved, stop_ofLexeme]
    by_cases hmem : offset + Text.size gap + Text.size (c :: more) ∈ stops
    · obtain ⟨hkind, hheads⟩ := hhere hmem
      obtain rfl : kind = .closeParen := hkind
      obtain ⟨rfl, htext⟩ := read_delimiter (d := ')') hread rfl
      obtain rfl : more = [] := (List.cons.inj htext).2
      have hshift := Rewrite.shift_of_mem (a := offset + Text.size gap)
        (b := offset + Text.size gap + Text.size [')']) (by simp; decide)
        (fun s hmem => (hwhere s hmem).imp_left fun h => by omega) hn hmem
      rw [hstart] at hshift
      rw [Rewrite.pieceAt_of_mem hmem, if_pos hmem]
      have hinsert : Woven (')' :: rest) (')' :: (Rewrite.invocation ++ weaveRest (pieceAt stops)
          (offset + Text.size gap + Text.size [')']) rest)) := .insert hw
      refine ⟨.append gap hinsert, .token (skip_of_woven hgap (by simp) _) (read_paren _ _).2 ?_⟩
      have hafter : shift stops offset + Text.size gap + Text.size [')'] + 2 =
          shift stops (offset + Text.size gap + Text.size [')']) := by
        omega
      rw [opening, closing, hmoved, stop_ofLexeme]
      refine .invocation ?_ (left_behind_closeParen hheads _)
      rw [hafter]
      exact hscan
    · rw [Rewrite.pieceAt_of_notMem hmem, if_neg hmem, List.nil_append]
      refine ⟨.append _ (.append _ hw), .token (skip_of_woven hgap (fun _ => hw) _)
        (Lexeme.read_of_woven hread hw) ?_⟩
      have hpast : ∀ s ∈ stops, s ≤ offset ∨ offset + Text.size gap + Text.size (c :: more) < s :=
        fun s hs => by
          rcases hwhere s hs with h | h
          · exact .inl h
          · have : s ≠ offset + Text.size gap + Text.size (c :: more) := by
              rintro rfl
              exact hmem hs
            exact .inr (by omega)
      have hshift := Rewrite.shift_of_none (by omega) hpast
      have hafter : shift stops offset + Text.size gap + Text.size (c :: more) =
          shift stops (offset + Text.size gap + Text.size (c :: more)) := by
        omega
      rw [hafter]
      exact hscan

/-! ## Whole texts -/

theorem interpreterLine_of_woven {source source' : List Char} (hw : Woven source source')
    (h : (interpreterLine source).1 = []) : interpreterLine source' = ([], source') := by
  have hplain : ['#', '!'].isPrefixOf source = false := by
    by_contra hpre
    obtain ⟨cs, rfl⟩ := List.isPrefixOf_iff_prefix.mp (Bool.not_eq_false _ ▸ hpre)
    simp [interpreterLine] at h
  rw [← hw.isPrefixOf_eq (by decide)] at hplain
  unfold interpreterLine
  split
  · simp [List.isPrefixOf] at hplain
  · rfl

theorem interpreterLine_append_of_head? {source rest' : List Char}
    (h : (interpreterLine source).1 ≠ [])
    (hhead : rest'.head? = (interpreterLine source).2.head?) :
    interpreterLine ((interpreterLine source).1 ++ rest') = ((interpreterLine source).1, rest') := by
  unfold interpreterLine at h hhead ⊢
  split at h
  · rename_i cs
    have hstop : rest'.head?.any (!Text.isLineBreak ·) = false := by
      rw [show rest'.head? = (cs.dropWhile (!Text.isLineBreak ·)).head? from hhead]
      exact Lexeme.head?_dropWhile cs
    have hline : ∀ c ∈ cs.takeWhile (!Text.isLineBreak ·), (!Text.isLineBreak c) = true :=
      fun c hc => List.all_eq_true.mp List.all_takeWhile c hc
    simp only [List.cons_append, List.takeWhile_append_of_pos hline,
      List.dropWhile_append_of_pos hline]
    clear hhead
    cases rest' <;> simp_all
  · exact absurd rfl h

/-- **The tokens of a text with invocations** are those of the text with two more behind each of the
parentheses. -/
theorem scan_weave {source : List Char} {tokens : List Token} (h : scan source = .ok tokens)
    (hs : Safe stops .start tokens) (hn : stops.Nodup)
    (hm : ∀ s ∈ stops, ∃ token ∈ tokens, token.stop = s) :
    Woven source (weave (pieceAt stops) 0 source) ∧
      scan (weave (pieceAt stops) 0 source) = .ok (invokedAll stops tokens) := by
  have hscan := Scans.iff.mpr h
  have hlater : ∀ s ∈ stops, Text.size (interpreterLine source).1 < s := by
    intro s hmem
    obtain ⟨token, ht, rfl⟩ := hm s hmem
    have := hscan.start_le token ht
    have := hscan.ordered.nonempty token ht
    omega
  obtain ⟨hw, hscan'⟩ := hscan.invoked hs hn fun s hmem => .inr (hm s hmem)
  have hshift : shift stops (Text.size (interpreterLine source).1) =
      Text.size (interpreterLine source).1 := by
    have hnone : stops.countP (· ≤ Text.size (interpreterLine source).1) = 0 :=
      List.countP_eq_zero.mpr fun s hmem => by
        have := hlater s hmem
        simp only [decide_eq_true_eq]
        omega
    simp [shift, hnone]
  have hweave : weave (pieceAt stops) 0 source = (interpreterLine source).1 ++
      weaveRest (pieceAt stops) (Text.size (interpreterLine source).1) (interpreterLine source).2 := by
    have hpiece : ∀ o, o ≤ Text.size (interpreterLine source).1 → pieceAt stops o = [] :=
      fun o ho => Rewrite.pieceAt_of_notMem fun hmem => by
        have := hlater o hmem
        omega
    conv_lhs => rw [← interpreterLine_append source]
    rw [Text.weave_append _ fun o _ ho => hpiece o (by omega), Nat.zero_add, Text.weave_eq,
      hpiece _ (Nat.le_refl _), List.nil_append]
  rw [hshift] at hscan'
  have hsplit : interpreterLine (weave (pieceAt stops) 0 source) =
      ((interpreterLine source).1,
        weaveRest (pieceAt stops) (Text.size (interpreterLine source).1)
          (interpreterLine source).2) := by
    rw [hweave]
    by_cases hline : (interpreterLine source).1 = []
    · have hall := interpreterLine_append source
      rw [hline, List.nil_append] at hall
      rw [hline, hall] at hw
      rw [hline, hall]
      exact interpreterLine_of_woven hw hline
    · exact interpreterLine_append_of_head? hline hw.head?_eq
  constructor
  · rw [hweave]
    conv_lhs => rw [← interpreterLine_append source]
    exact .append _ hw
  · rw [scan, hsplit]
    exact hscan'.scanFrom

end Token

end DeferredLog
