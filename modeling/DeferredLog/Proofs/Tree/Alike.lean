import DeferredLog.Program.Outline
import Mathlib.Data.List.Forall2

/-!
# Trees that look alike

The walk over the trees of a program decides by little: of a leaf by its kind, the line break before it
and, if it is a name or a punctuator, its text, of a group by its delimiter and the line break before it, and never by more than
two trees ahead. `Alike` relates trees that are the same in this, `Ahead` lists that begin alike.

* Each question that the walk asks of a tree has the same answer for trees that are alike.
* Each function that cuts trees in front of it cuts at the same place once the trees up to there are
  alike, and those behind begin alike: `takeExpression_of_alike`, `clauseEnd_of_alike` and others.
-/

namespace DeferredLog

namespace Tree

/-- Trees that are the same from outside: what a leaf says, but for what stands in a literal, and the
delimiter of a group, but not where they are. -/
inductive Alike : Tree → Tree → Prop
  | leaf {token token' : Token} (kind : token'.kind = token.kind)
      (text : token.kind = .ident ∨ token.kind = .punct → token'.text = token.text)
      (newline : token'.newlineBefore = token.newlineBefore) : Alike (.leaf token) (.leaf token')
  | group {delimiter : Delimiter} {opening closing opening' closing' : Token}
      {inside inside' : List Tree} (newline : opening'.newlineBefore = opening.newlineBefore) :
      Alike (.group delimiter opening closing inside) (.group delimiter opening' closing' inside')

/-- Lists that begin with as many trees that are alike, or end before. -/
def Ahead : Nat → List Tree → List Tree → Prop
  | 0, _, _ => True
  | _ + 1, [], [] => True
  | n + 1, tree :: trees, tree' :: trees' => Alike tree tree' ∧ Ahead n trees trees'
  | _ + 1, _, _ => False

/-! ## Single trees -/

namespace Alike

variable {tree tree' : Tree}

theorem refl (tree : Tree) : Alike tree tree := by
  cases tree with
  | leaf => exact .leaf rfl (fun _ => rfl) rfl
  | group => exact .group rfl

theorem ident?_eq (h : Alike tree tree') : tree'.ident? = tree.ident? := by
  cases h with
  | @leaf token token' kind text =>
    by_cases hk : token.kind = .ident
    · simp [ident?, kind, hk, text (.inl hk)]
    · simp [ident?, kind, hk]
  | group => rfl

theorem isIdent_eq (h : Alike tree tree') (name : String) :
    tree'.isIdent name = tree.isIdent name := by
  rw [isIdent, isIdent, h.ident?_eq]

theorem isPunct_eq (h : Alike tree tree') (text : String) :
    tree'.isPunct text = tree.isPunct text := by
  cases h with
  | @leaf token token' kind text =>
    by_cases hk : token.kind = .punct
    · simp [isPunct, Token.isPunct, kind, text (.inr hk)]
    · simp [isPunct, Token.isPunct, kind, hk]
  | group => rfl

theorem newlineBefore_eq (h : Alike tree tree') : tree'.newlineBefore = tree.newlineBefore := by
  cases h with
  | leaf _ _ newline => exact newline
  | group newline => exact newline

theorem isGroup_eq (h : Alike tree tree') (delimiter : Delimiter) :
    Outline.isGroup delimiter tree' = Outline.isGroup delimiter tree := by
  cases h with
  | leaf => rfl
  | group => simp only [Outline.isGroup, inside?]; split <;> rfl

theorem isFreeName_eq (h : Alike tree tree') :
    Outline.isFreeName tree' = Outline.isFreeName tree := by
  rw [Outline.isFreeName, Outline.isFreeName, h.ident?_eq]

theorem string?_isSome_eq (h : Alike tree tree') :
    tree'.string?.isSome = tree.string?.isSome := by
  cases h with
  | leaf kind => simp only [string?, kind]; split <;> rfl
  | group => rfl

theorem endsExpression_eq (h : Alike tree tree') :
    tree'.endsExpression = tree.endsExpression := by
  cases h with
  | @leaf token token' kind text =>
    simp only [endsExpression, kind]
    split
    · rename_i hk
      rw [text (.inl hk)]
    · rename_i hk
      rw [text (.inr hk)]
    · rfl
  | group => rfl

theorem continuesExpression_eq (h : Alike tree tree') :
    tree'.continuesExpression = tree.continuesExpression := by
  cases h with
  | @leaf token token' kind text =>
    simp only [continuesExpression, kind]
    split
    · rfl
    · rename_i hk
      rw [text (.inl hk)]
    · rename_i hk
      rw [text (.inr hk)]
    · rfl
  | group => rfl

theorem endsArrowBody_eq (h : Alike tree tree') :
    tree'.endsArrowBody = tree.endsArrowBody := by
  rw [endsArrowBody, endsArrowBody, h.isPunct_eq, h.isPunct_eq]

theorem endsLoopNames_eq (h : Alike tree tree') :
    Outline.endsLoopNames tree' = Outline.endsLoopNames tree := by
  rw [Outline.endsLoopNames, Outline.endsLoopNames, h.isPunct_eq, h.isIdent_eq, h.isIdent_eq]

theorem isDot_eq (h : Alike tree tree') : tree'.isDot = tree.isDot := by
  rw [isDot, isDot, h.isPunct_eq, h.isPunct_eq]

end Alike

/-! ## Lists that begin alike -/

section Ahead

variable {n : Nat} {tree tree' : Tree} {trees trees' : List Tree}

theorem Ahead.mono {m : Nat} (hmn : m ≤ n) (h : Ahead n trees trees') : Ahead m trees trees' := by
  induction n generalizing m trees trees' with
  | zero => obtain rfl : m = 0 := by omega
            exact h
  | succ n ih =>
    cases m with
    | zero => trivial
    | succ m =>
      cases trees <;> cases trees' <;> simp only [Ahead] at h ⊢
      exact ⟨h.1, ih (by omega) h.2⟩

theorem Ahead.cons (h : Alike tree tree') (hs : Ahead n trees trees') :
    Ahead n (tree :: trees) (tree' :: trees') := by
  cases n with
  | zero => trivial
  | succ n => exact ⟨h, hs.mono (Nat.le_succ n)⟩

theorem Ahead.one (h : Alike tree tree') : Ahead 1 (tree :: trees) (tree' :: trees') :=
  ⟨h, trivial⟩

theorem Ahead.append {front front' : List Tree} (h : List.Forall₂ Alike front front')
    (hs : Ahead n trees trees') : Ahead n (front ++ trees) (front' ++ trees') := by
  induction h with
  | nil => exact hs
  | cons h _ ih => exact ih.cons h

theorem Ahead.of_alike {front front' : List Tree} (h : List.Forall₂ Alike front front')
    (hne : front ≠ []) (rest : List Tree) : Ahead 1 (front ++ rest) front' := by
  cases h with
  | nil => exact absurd rfl hne
  | cons h => exact .one h

theorem Ahead.nil_iff : Ahead (n + 1) [] trees' ↔ trees' = [] := by
  cases trees' <;> simp [Ahead]

theorem Ahead.cons_inv (h : Ahead (n + 1) (tree :: trees) trees') :
    ∃ tree' rest, trees' = tree' :: rest ∧ Alike tree tree' ∧ Ahead n trees rest := by
  cases trees' with
  | nil => exact h.elim
  | cons tree' rest => exact ⟨tree', rest, rfl, h⟩

theorem startsWith_of_ahead {p : Tree → Bool}
    (hp : ∀ tree tree', Alike tree tree' → p tree' = p tree) (h : Ahead (n + 1) trees trees') :
    Outline.startsWith p trees' = Outline.startsWith p trees := by
  cases trees <;> cases trees' <;> simp_all [Ahead, Outline.startsWith]
  exact hp _ _ h.1

theorem behindWord?_of_ahead_none {word : String} (h : Ahead (n + 1) trees trees')
    (hw : behindWord? word trees = none) : behindWord? word trees' = none := by
  cases trees <;> cases trees' <;> simp_all [Ahead, behindWord?]
  rw [h.1.isIdent_eq]
  exact hw

theorem behindWord?_eq_some {word : String} {rest : List Tree}
    (h : behindWord? word trees = some rest) :
    ∃ tree, trees = tree :: rest ∧ tree.isIdent word = true := by
  cases trees with
  | nil => simp [behindWord?] at h
  | cons tree trees =>
    simp only [behindWord?] at h
    split at h
    · rename_i hi
      exact ⟨tree, by rw [Option.some.inj h], hi⟩
    · simp at h

theorem behindWord?_cons {word : String} {rest : List Tree} (h : tree.isIdent word = true) :
    behindWord? word (tree :: rest) = some rest := by
  simp [behindWord?, h]

theorem form_of_alike (h : Alike tree tree') (hs : Ahead (n + 1) trees trees') :
    Outline.Form.of tree' trees' = Outline.Form.of tree trees := by
  have starts := fun p hp => startsWith_of_ahead (p := p) hp hs
  have hword : ∀ word, Outline.Form.ofWord word trees' = Outline.Form.ofWord word trees := by
    intro word
    unfold Outline.Form.ofWord
    rw [starts _ fun _ _ h => by rw [h.isGroup_eq, h.isPunct_eq],
      starts _ fun _ _ h => by rw [h.isIdent_eq, h.newlineBefore_eq],
      starts _ fun _ _ h => by rw [h.isFreeName_eq, h.isGroup_eq, h.isGroup_eq],
      starts (isPunct ":") fun _ _ h => h.isPunct_eq _]
  unfold Outline.Form.of
  rw [h.isPunct_eq, h.isGroup_eq, h.ident?_eq]
  simp only [hword]

end Ahead

/-! ## Cuts -/

/-- The last tree of a list, or the one before the list if it is empty. -/
def lastOf (before : Option Tree) : List Tree → Option Tree
  | [] => before
  | tree :: trees => lastOf (some tree) trees

@[simp]
theorem lastOf_append (before : Option Tree) (a b : List Tree) :
    lastOf before (a ++ b) = lastOf (lastOf before a) b := by
  induction a generalizing before with
  | nil => rfl
  | cons tree a ih => exact ih _

/-- Whether an expression can end behind two trees alike, or there is none. -/
def EndsAlike (before before' : Option Tree) : Prop :=
  before'.map endsExpression = before.map endsExpression

theorem EndsAlike.lastOf {before before' : Option Tree} {trees trees' : List Tree}
    (h : EndsAlike before before') (hs : List.Forall₂ Alike trees trees') :
    EndsAlike (lastOf before trees) (lastOf before' trees') := by
  induction hs generalizing before before' with
  | nil => exact h
  | cons ht _ ih => exact ih (by simp [EndsAlike, ht.endsExpression_eq])

theorem breaksBefore_of_alike {before before' : Option Tree} {tree tree' : Tree}
    (h : EndsAlike before before') (ht : Alike tree tree') :
    breaksBefore before' tree' = breaksBefore before tree := by
  cases before <;> cases before' <;> simp_all [EndsAlike, breaksBefore]
  rw [ht.newlineBefore_eq, ht.continuesExpression_eq]

/-- An expression goes on over trees that are alike. -/
theorem takeExpression_append_of_alike {before before' : Option Tree} {trees front : List Tree}
    (h : EndsAlike before before') (hs : List.Forall₂ Alike (takeExpression before trees).1 front)
    (rest : List Tree) :
    takeExpression before' (front ++ rest) =
      (front ++ (takeExpression (lastOf before' front) rest).1,
        (takeExpression (lastOf before' front) rest).2) := by
  induction trees generalizing before before' front with
  | nil =>
    cases hs
    rfl
  | cons tree trees ih =>
    rw [takeExpression] at hs
    split at hs
    · cases hs
      rfl
    · rename_i hstop
      cases hs with
      | cons ht hs =>
        rename_i tree' front
        have hends : EndsAlike (some tree) (some tree') := by simp [EndsAlike, ht.endsExpression_eq]
        rw [List.cons_append, takeExpression, if_neg, ih hends hs]
        · rfl
        · rw [breaksBefore_of_alike h ht, ht.isPunct_eq]
          exact hstop

/-- An expression ends where one that is alike ends. -/
theorem takeExpression_stops {before last : Option Tree} {trees rest : List Tree}
    (h : EndsAlike (lastOf before (takeExpression before trees).1) last)
    (hs : Ahead 1 (takeExpression before trees).2 rest) :
    takeExpression last rest = ([], rest) := by
  induction trees generalizing before with
  | nil =>
    obtain rfl := Ahead.nil_iff.mp hs
    rfl
  | cons tree trees ih =>
    rw [takeExpression] at h hs
    split at hs
    · rename_i hstop
      rw [if_pos hstop] at h
      obtain ⟨tree', rest, rfl, ht, -⟩ := hs.cons_inv
      rw [takeExpression, if_pos]
      rw [breaksBefore_of_alike h ht, ht.isPunct_eq]
      exact hstop
    · rename_i hstop
      rw [if_neg hstop] at h
      exact ih h hs

/-- The trees of an expression are cut off alike. -/
theorem takeExpression_of_alike {before before' : Option Tree} {trees front rest : List Tree}
    (h : EndsAlike before before') (hf : List.Forall₂ Alike (takeExpression before trees).1 front)
    (hr : Ahead 1 (takeExpression before trees).2 rest) :
    takeExpression before' (front ++ rest) = (front, rest) := by
  rw [takeExpression_append_of_alike h hf, takeExpression_stops (h.lastOf hf) hr]
  simp

/-- Behind an expression stands a semicolon, or a tree on a new line. -/
theorem takeExpression_snd_cons {before : Option Tree} {trees rest : List Tree} {tree : Tree}
    (h : (takeExpression before trees).2 = tree :: rest) :
    tree.isPunct ";" = true ∨ tree.newlineBefore = true := by
  induction trees generalizing before with
  | nil => simp [takeExpression] at h
  | cons first trees ih =>
    rw [takeExpression] at h
    split at h
    · rename_i hstop
      obtain ⟨rfl, -⟩ := List.cons.inj h
      rcases Bool.or_eq_true _ _ ▸ hstop with hs | hs
      · exact .inl hs
      · cases before with
        | none => simp [breaksBefore] at hs
        | some =>
          simp only [breaksBefore, Bool.and_eq_true] at hs
          exact .inr hs.1.1
    · exact ih h

/-- A semicolon at the front, if there is one, is what is skipped. -/
theorem skipSemicolon_cut (trees : List Tree) :
    ∃ semicolon, trees = semicolon ++ skipSemicolon trees ∧
      (semicolon = [] ∨ ∃ tree, semicolon = [tree] ∧ tree.isPunct ";" = true) := by
  cases trees with
  | nil => exact ⟨[], rfl, .inl rfl⟩
  | cons tree trees =>
    rw [skipSemicolon]
    split
    · rename_i h
      exact ⟨[tree], rfl, .inr ⟨tree, rfl, h⟩⟩
    · exact ⟨[], rfl, .inl rfl⟩

theorem skipSemicolon_of_alike {trees semicolon semicolon' rest' : List Tree}
    (hcut : trees = semicolon ++ skipSemicolon trees)
    (hs : List.Forall₂ Alike semicolon semicolon') (hr : Ahead 1 (skipSemicolon trees) rest') :
    skipSemicolon (semicolon' ++ rest') = rest' := by
  cases trees with
  | nil =>
    obtain ⟨rfl, -⟩ := List.append_eq_nil_iff.mp hcut.symm
    cases hs
    obtain rfl := Ahead.nil_iff.mp hr
    rfl
  | cons tree trees =>
    rw [skipSemicolon] at hcut hr
    split at hcut
    · rename_i h
      rw [if_pos h] at hr
      obtain rfl : semicolon = [tree] := List.append_cancel_right hcut.symm
      cases hs with
      | cons ht hs =>
        cases hs
        simp [skipSemicolon, ht.isPunct_eq, h]
    · rename_i h
      rw [if_neg h] at hr
      obtain rfl : semicolon = [] := List.append_cancel_right hcut.symm
      cases hs
      obtain ⟨tree', rest', rfl, ht, -⟩ := hr.cons_inv
      simp [skipSemicolon, ht.isPunct_eq, h]

/-- Attributes at the front, if there are any, are what is skipped. -/
theorem skipAttributes_cut (trees : List Tree) :
    ∃ attributes, trees = attributes ++ skipAttributes trees ∧
      (attributes = [] ∨ ∃ word opening closing inside,
        attributes = [word, .group .brace opening closing inside]) ∧
      ∀ attributes' rest', List.Forall₂ Alike attributes attributes' →
        Ahead 2 (skipAttributes trees) rest' → skipAttributes (attributes' ++ rest') = rest' := by
  unfold skipAttributes
  split
  · rename_i word opening closing inside rest
    split
    · rename_i h
      refine ⟨[word, .group .brace opening closing inside], rfl, .inr ⟨_, _, _, _, rfl⟩, ?_⟩
      rintro _ rest' (_ | ⟨hw, _ | ⟨⟨-⟩, _ | _⟩⟩) -
      simp [hw.isIdent_eq, h]
    · rename_i h
      refine ⟨[], rfl, .inl rfl, ?_⟩
      rintro _ rest' (_ | _) hr
      obtain ⟨word', rest', rfl, hw, hr⟩ := hr.cons_inv
      obtain ⟨_, rest', rfl, ⟨-⟩, -⟩ := hr.cons_inv
      simp [hw.isIdent_eq, h]
  · rename_i h
    refine ⟨[], rfl, .inl rfl, ?_⟩
    rintro _ rest' (_ | _) hr
    rw [List.nil_append]
    split
    · rename_i word opening closing inside rest
      cases trees with
      | nil => simp [Ahead] at hr
      | cons first trees =>
        obtain ⟨-, hr⟩ := hr
        cases trees with
        | nil => simp [Ahead] at hr
        | cons second trees =>
          obtain ⟨hs, -⟩ := hr
          cases hs
          exact (h _ _ _ _ _ rfl).elim
    · rfl

/-- An import or export clause ends behind the specifier; one that needs none also before a
semicolon, a new line, or the end. -/
theorem clauseEnd_cut {required first : Bool} {trees after : List Tree}
    (h : clauseEnd required first trees = some after) :
    ∃ front, trees = front ++ after ∧
      (∀ before tree, after.head? = some tree →
        (∃ token, lastOf before front = some (.leaf token) ∧ token.kind = .string) ∨
          tree.isPunct ";" = true ∨ tree.newlineBefore = true) ∧
      ∀ front' after', List.Forall₂ Alike front front' → Ahead 1 after after' →
        clauseEnd required first (front' ++ after') = some after' := by
  induction trees generalizing first with
  | nil =>
    rw [clauseEnd] at h
    split at h
    · cases h
    · rename_i hr
      obtain rfl := Option.some.inj h
      refine ⟨[], rfl, by simp, ?_⟩
      rintro _ after' (_ | _) ha
      obtain rfl := Ahead.nil_iff.mp ha
      simp [clauseEnd, hr]
  | cons tree trees ih =>
    rw [clauseEnd] at h
    split at h
    · rename_i hs
      obtain rfl := Option.some.inj h
      refine ⟨[tree], rfl, fun before next _ => .inl ?_, ?_⟩
      · cases tree with
        | leaf token =>
          simp only [string?] at hs
          split at hs
          · rename_i hk
            exact ⟨token, rfl, hk⟩
          · cases hs
        | group => cases hs
      · rintro _ after' (_ | ⟨ht, _ | _⟩) -
        simp [clauseEnd, ht.string?_isSome_eq, hs]
    · rename_i hs
      split at h
      · rename_i hstop
        split at h
        · cases h
        · rename_i hr
          obtain rfl := Option.some.inj h
          refine ⟨[], rfl, ?_, ?_⟩
          · simp only [List.head?_cons, Option.some.injEq, forall_eq']
            intro _
            simp only [Bool.or_eq_true, Bool.and_eq_true] at hstop
            exact .inr (hstop.imp id (·.2))
          · rintro _ after' (_ | _) ha
            obtain ⟨tree', rest', rfl, ht, -⟩ := ha.cons_inv
            rw [List.nil_append, clauseEnd, if_neg (by rwa [ht.string?_isSome_eq]),
              if_pos (by rwa [ht.isPunct_eq, ht.newlineBefore_eq]), if_neg hr]
      · rename_i hstop
        obtain ⟨front, rfl, hend, ha⟩ := ih h
        refine ⟨tree :: front, rfl, fun before => hend (some tree), ?_⟩
        rintro _ after' (_ | ⟨ht, hf⟩) hr
        rw [List.cons_append, clauseEnd, if_neg (by rwa [ht.string?_isSome_eq]),
          if_neg (by rwa [ht.isPunct_eq, ht.newlineBefore_eq]), ha _ _ hf hr]

/-- The test of a case ends at its colon. -/
theorem takeCase_cut {pending : Nat} {trees test after : List Tree}
    (h : takeCase pending trees = some (test, after)) :
    ∃ colon, trees = test ++ colon :: after ∧ colon.isPunct ":" = true ∧
      ∀ test' colon' after', List.Forall₂ Alike test test' → Alike colon colon' →
        takeCase pending (test' ++ colon' :: after') = some (test', after') := by
  induction trees generalizing pending test with
  | nil => simp [takeCase] at h
  | cons tree trees ih =>
    have grow : ∀ n, (takeCase n trees).map (fun r => (tree :: r.1, r.2)) = some (test, after) →
        ∃ test₁ colon, test = tree :: test₁ ∧ trees = test₁ ++ colon :: after ∧
          colon.isPunct ":" = true ∧ ∀ test' colon' after', List.Forall₂ Alike test₁ test' →
            Alike colon colon' → takeCase n (test' ++ colon' :: after') = some (test', after') := by
      intro n h
      obtain ⟨⟨a, b⟩, hr, he⟩ := Option.map_eq_some_iff.mp h
      simp only [Prod.mk.injEq] at he
      obtain ⟨rfl, rfl⟩ := he
      obtain ⟨colon, rfl, hc⟩ := ih hr
      exact ⟨a, colon, rfl, rfl, hc⟩
    rw [takeCase] at h
    split at h
    · rename_i hq
      obtain ⟨test, colon, rfl, rfl, hp, hc⟩ := grow _ h
      refine ⟨colon, rfl, hp, ?_⟩
      rintro _ colon' after' (_ | ⟨ht, hs⟩) hcolon
      rw [List.cons_append, takeCase, if_pos (by rwa [ht.isPunct_eq]), hc _ _ _ hs hcolon]
      rfl
    · rename_i hq
      split at h
      · rename_i hcolon
        split at h
        · rename_i hz
          simp only [Option.some.injEq, Prod.mk.injEq] at h
          obtain ⟨rfl, rfl⟩ := h
          refine ⟨tree, rfl, hcolon, ?_⟩
          rintro _ colon' after' (_ | _) ht
          rw [List.nil_append, takeCase, if_neg (by rwa [ht.isPunct_eq]),
            if_pos (by rwa [ht.isPunct_eq]), if_pos hz]
        · rename_i hz
          obtain ⟨test, colon, rfl, rfl, hp, hc⟩ := grow _ h
          refine ⟨colon, rfl, hp, ?_⟩
          rintro _ colon' after' (_ | ⟨ht, hs⟩) hcolon'
          rw [List.cons_append, takeCase, if_neg (by rwa [ht.isPunct_eq]),
            if_pos (by rwa [ht.isPunct_eq]), if_neg hz, hc _ _ _ hs hcolon']
          rfl
      · rename_i hcolon
        obtain ⟨test, colon, rfl, rfl, hp, hc⟩ := grow _ h
        refine ⟨colon, rfl, hp, ?_⟩
        rintro _ colon' after' (_ | ⟨ht, hs⟩) hcolon'
        rw [List.cons_append, takeCase, if_neg (by rwa [ht.isPunct_eq]),
          if_neg (by rwa [ht.isPunct_eq]), hc _ _ _ hs hcolon']
        rfl

/-- The first group in braces is the one to cut at. -/
theorem cutAtBrace_cut {trees before inside after : List Tree}
    (h : cutAtBrace trees = some (before, inside, after)) :
    ∃ opening closing, trees = before ++ .group .brace opening closing inside :: after ∧
      ∀ before' opening' closing' inside' after', List.Forall₂ Alike before before' →
        cutAtBrace (before' ++ .group .brace opening' closing' inside' :: after') =
          some (before', inside', after') := by
  fun_induction cutAtBrace trees generalizing before with
  | case1 => simp at h
  | case2 opening closing =>
    simp only [Option.some.injEq, Prod.mk.injEq] at h
    obtain ⟨rfl, rfl, rfl⟩ := h
    refine ⟨opening, closing, rfl, ?_⟩
    rintro _ opening' closing' inside' after' (_ | _)
    rfl
  | case3 tree trees hne ih =>
    obtain ⟨⟨a, b, c⟩, hr, he⟩ := Option.map_eq_some_iff.mp h
    simp only [Prod.mk.injEq] at he
    obtain ⟨rfl, rfl, rfl⟩ := he
    obtain ⟨opening, closing, rfl, hc⟩ := ih hr
    refine ⟨opening, closing, rfl, ?_⟩
    rintro _ opening' closing' inside' after' (_ | ⟨ht, hs⟩)
    rw [List.cons_append, cutAtBrace, hc _ _ _ _ _ hs]
    · rfl
    · rintro _ _ _ rfl
      cases ht
      exact hne _ _ _ rfl

/-- An arrow function's expression ends before the first comma or semicolon. -/
theorem takeArrowBody_of_alike {trees front rest : List Tree}
    (hf : List.Forall₂ Alike (takeArrowBody trees).1 front)
    (hr : Ahead 1 (takeArrowBody trees).2 rest) : takeArrowBody (front ++ rest) = (front, rest) := by
  induction trees generalizing front with
  | nil =>
    cases hf
    obtain rfl := Ahead.nil_iff.mp hr
    rfl
  | cons tree trees ih =>
    by_cases h : tree.endsArrowBody = true
    · simp only [takeArrowBody, List.takeWhile_cons, List.dropWhile_cons, h, Bool.not_true,
        Bool.false_eq_true, if_false] at hf hr
      cases hf
      obtain ⟨tree', rest', rfl, ht, -⟩ := hr.cons_inv
      simp [takeArrowBody, ht.endsArrowBody_eq, h]
    · simp only [takeArrowBody, List.takeWhile_cons, List.dropWhile_cons, h, Bool.not_false,
        if_true] at hf hr
      cases hf with
      | cons ht hf =>
        have := ih hf hr
        simp only [takeArrowBody, Prod.mk.injEq] at this
        simp [takeArrowBody, ht.endsArrowBody_eq, h, this]

end Tree

namespace Outline

open DeferredLog.Tree

/-- What stands before the parameters of a function, its name and an asterisk, is cut off. -/
theorem functionName_cut (trees : List Tree) : ∃ front, trees = front ++ (functionName trees).2 ∧
    ∀ front' after', List.Forall₂ Alike front front' → Ahead 2 (functionName trees).2 after' →
      functionName (front' ++ after') = ((functionName trees).1, after') := by
  cases trees with
  | nil =>
    refine ⟨[], rfl, ?_⟩
    rintro _ after' (_ | _) ha
    obtain rfl := Ahead.nil_iff.mp ha
    rfl
  | cons first rest =>
    by_cases hstar : first.isPunct "*" = true
    · cases rest with
      | nil =>
        refine ⟨[first], by simp [functionName, hstar], ?_⟩
        rintro _ after' (_ | ⟨hf, _ | _⟩) ha
        rw [show (functionName [first]).2 = [] by simp [functionName, hstar]] at ha
        obtain rfl := Ahead.nil_iff.mp ha
        simp [functionName, hf.isPunct_eq, hstar]
      | cons second rest =>
        cases hi : second.ident? with
        | none =>
          refine ⟨[first], by simp [functionName, hstar, hi], ?_⟩
          rintro _ after' (_ | ⟨hf, _ | _⟩) ha
          rw [show (functionName (first :: second :: rest)).2 = second :: rest by
            simp [functionName, hstar, hi]] at ha
          obtain ⟨second', rest', rfl, hs, -⟩ := ha.cons_inv
          simp [functionName, hf.isPunct_eq, hstar, hi, hs.ident?_eq]
        | some name =>
          refine ⟨[first, second], by simp [functionName, hstar, hi], ?_⟩
          rintro _ after' (_ | ⟨hf, _ | ⟨hs, _ | _⟩⟩) -
          simp [functionName, hf.isPunct_eq, hstar, hi, hs.ident?_eq]
    · cases hi : first.ident? with
      | none =>
        refine ⟨[], by simp [functionName, hstar, hi], ?_⟩
        rintro _ after' (_ | _) ha
        rw [show (functionName (first :: rest)).2 = first :: rest by
          simp [functionName, hstar, hi]] at ha
        obtain ⟨first', rest', rfl, hf, -⟩ := ha.cons_inv
        simp [functionName, hf.isPunct_eq, hstar, hi, hf.ident?_eq]
      | some name =>
        refine ⟨[first], by simp [functionName, hstar, hi], ?_⟩
        rintro _ after' (_ | ⟨hf, _ | _⟩) -
        simp [functionName, hf.isPunct_eq, hstar, hi, hf.ident?_eq]

/-- The name of a class, if it has one, is cut off. -/
theorem className_cut (trees : List Tree) : ∃ front, trees = front ++ (className trees).2 ∧
    ∀ front' after', List.Forall₂ Alike front front' → Ahead 2 (className trees).2 after' →
      className (front' ++ after') = ((className trees).1, after') := by
  cases trees with
  | nil =>
    refine ⟨[], rfl, ?_⟩
    rintro _ after' (_ | _) ha
    obtain rfl := Ahead.nil_iff.mp ha
    rfl
  | cons first rest =>
    cases hi : first.ident? with
    | none =>
      refine ⟨[], by simp [className, hi], ?_⟩
      rintro _ after' (_ | _) ha
      rw [show (className (first :: rest)).2 = first :: rest by simp [className, hi]] at ha
      obtain ⟨first', rest', rfl, hf, -⟩ := ha.cons_inv
      simp [className, hi, hf.ident?_eq]
    | some name =>
      by_cases hn : name = "extends"
      · refine ⟨[], by simp [className, hi, hn], ?_⟩
        rintro _ after' (_ | _) ha
        rw [show (className (first :: rest)).2 = first :: rest by simp [className, hi, hn]] at ha
        obtain ⟨first', rest', rfl, hf, -⟩ := ha.cons_inv
        simp [className, hi, hn, hf.ident?_eq]
      · refine ⟨[first], by simp [className, hi, hn], ?_⟩
        rintro _ after' (_ | ⟨hf, _ | _⟩) -
        simp [className, hi, hn, hf.ident?_eq]

/-- What the form of a statement says of its first tree and the one behind it. -/
theorem form_rest {tree : Tree} {rest : List Tree} {form : Form} (hf : Form.of tree rest = form) :
    (form = .asyncFunction → startsWith (fun t => t.isIdent "function" && !t.newlineBefore) rest = true) ∧
      (form = .labelled → startsWith (isPunct ":") rest = true) ∧
      (form = .exportClause → tree.isIdent "export" = true) := by
  unfold Form.of at hf
  split at hf
  · subst hf
    simp
  · split at hf
    · subst hf
      simp
    · split at hf
      · rename_i word hw
        unfold Form.ofWord at hf
        split at hf
        case h_17 =>
          subst hf
          exact ⟨nofun, nofun, fun _ => decide_eq_true hw⟩
        case h_19 =>
          split at hf
          · rename_i h
            subst hf
            exact ⟨fun _ => (Bool.and_eq_true_iff.mp h).2, nofun, nofun⟩
          · split at hf
            · subst hf
              simp
            · split at hf
              · rename_i h
                subst hf
                exact ⟨nofun, fun _ => (Bool.and_eq_true_iff.mp h).2, nofun⟩
              · subst hf
                simp
        all_goals
          first
            | subst hf
              simp
            | split at hf <;>
              · subst hf
                simp
      · subst hf
        simp

/-- What a leaf announces behind places that are both behind a dot, or both not. -/
theorem inner_of_alike {n : Nat} {before before' : Before} {token token' : Token}
    {trees trees' : List Tree} (h : before'.isDot = before.isDot)
    (ht : Alike (.leaf token) (.leaf token')) (hs : Ahead (n + 1) trees trees') :
    Inner.of before' token' trees' = Inner.of before token trees := by
  have starts := fun p hp => startsWith_of_ahead (p := p) hp hs
  have harrow := ht.isPunct_eq "=>"
  simp only [isPunct] at harrow
  cases ht with
  | leaf kind text =>
    unfold Inner.of
    rw [kind, h, starts (isPunct ":") fun _ _ h => h.isPunct_eq _,
      starts (isGroup .paren) fun _ _ h => h.isGroup_eq _,
      starts (isGroup .brace) fun _ _ h => h.isGroup_eq _, harrow]
    split
    · rename_i hk
      rw [text (.inl hk)]
    · rfl

end Outline

end DeferredLog
