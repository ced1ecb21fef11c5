import DeferredLog.Proofs.Program.Edit

/-!
# Keywords as member names

A word behind a dot is a name, whether it is a keyword elsewhere or not. The reading of tokens knows that
(`Token.scan_member`), and so do most places of the walk over the trees. Four look at a word without the
dot before it: the test for operators at the end of a line, the one for the words that end the declarators
of a loop, the one for the single parameter of an arrow function, and the end of an export clause, which
can be a line break behind a dot. A word behind a dot can be replaced by another one where none of them tells the two
apart (`Interchangeable`).

* `Program.parse_rename`: then the program is the same, but for the name and for the offsets behind it.
* `Program.not_forall_parse_rename`: else it may be another one.
-/

namespace DeferredLog

open DeferredLog.Tree

/-- Whether a name behind a dot can become another one in front of some token, as far as the places are
concerned that do not look at the dot. -/
structure Interchangeable (tokens : List Token) (token : Token) (name : String) (next : Option Token) :
    Prop where
  /-- If one of the names is an operator elsewhere so is the other one, or no line ends behind it. -/
  operator : operatorWords.contains name = operatorWords.contains token.text ∨
    ∀ t ∈ next, t.newlineBefore = false
  /-- If one of the names ends the declarators of a loop so does the other one. -/
  loop : ["of", "in"].contains name = ["of", "in"].contains token.text
  /-- No arrow follows, for which it would be a parameter. -/
  arrow : ∀ t ∈ next, t.isPunct "=>" = false
  /-- It stands on the line of the dot, or nothing is exported. -/
  line : token.newlineBefore = true → ∀ t ∈ tokens, Tree.isIdent "export" (.leaf t) = false

namespace Program

variable {source front name back : List Char} {dot token : Token} {a b : List Token} {trees : List Tree}
  {program : Program}

/-- Only the name that is replaced gets another text. -/
theorem keeps_ofName {t : Token} (h : t.start ≠ token.start) :
    (Edit.ofName front name token).recast.Keeps t :=
  fun _ => Edit.text_token (if_neg h)

theorem fits_ofName (hordered : Token.Ordered (a ++ dot :: token :: b))
    (hdot : Tree.isDot (.leaf dot) = true) (hk : token.kind = .ident)
    (h : Interchangeable (a ++ dot :: token :: b) token (String.ofList name) b.head?) :
    (Edit.ofName front name token).recast.Fits
      ((a ++ dot :: token :: b).any fun t => Tree.isIdent "export" (.leaf t)) false
      (a ++ dot :: token :: b) := by
  have hexports : ∀ t ∈ a ++ dot :: token :: b, Tree.isIdent "export" (.leaf t) = true →
      ((a ++ dot :: token :: b).any fun t => Tree.isIdent "export" (.leaf t)) = true :=
    fun t ht he => List.any_eq_true.mpr ⟨t, ht, he⟩
  have hbefore : ∀ t ∈ a ++ [dot], t.start ≠ token.start := fun t ht => by
    rw [List.append_cons] at hordered
    have := hordered.between ht List.mem_cons_self
    have := hordered.left.nonempty t ht
    omega
  have hbehind : ∀ t ∈ b, t.start ≠ token.start := fun t ht => by
    have hlater : Token.Ordered (token :: b) := (Token.Ordered.right hordered).tail
    have := (List.pairwise_cons.mp hlater.sorted).1 t ht
    have := hlater.nonempty token List.mem_cons_self
    omega
  have hnew : ((Edit.ofName front name token).token token).text = String.ofList name := by
    simp [Edit.token, Edit.ofName, Edit.behind]
  have hrenames : (Edit.ofName front name token).recast.RenamesBefore
      ((a ++ dot :: token :: b).any fun t => Tree.isIdent "export" (.leaf t)) token b.head? :=
    ⟨hk, hnew ▸ h.operator, hnew ▸ h.loop, h.arrow, fun hline => by
      rw [List.any_eq_false]
      exact fun t ht => by rw [h.line hline t ht]; exact Bool.false_ne_true⟩
  generalize ((a ++ dot :: token :: b).any fun t => Tree.isIdent "export" (.leaf t)) = exports at *
  refine .append (fun t ht => ⟨keeps_ofName (hbefore t (List.mem_append_left _ ht)),
    hexports t (List.mem_append_left _ ht)⟩) fun _ => ?_
  refine ⟨.inl ⟨keeps_ofName (hbefore dot (by simp)), hexports dot (by simp)⟩, .inr ⟨hdot, hrenames⟩, ?_⟩
  exact Recast.fits_of_keeps fun t ht => ⟨keeps_ofName (hbehind t ht), hexports t (by simp [ht])⟩

/-- **A name behind a dot can be replaced.** The text with another name there has the same trees and the
same program, with the name in its place and the offsets behind it moved. -/
theorem parse_rename (hs : Token.scan source = .ok (a ++ dot :: token :: b))
    (ht : Tree.ofTokens (a ++ dot :: token :: b) = .ok trees) (hp : ofTrees trees = .ok program)
    (hdot : Tree.isDot (.leaf dot) = true) (hk : token.kind = .ident)
    (hsource : source = front ++ (token.text.toList ++ back)) (hfront : Text.size front = token.start)
    (hname : Lexeme.isName name = true)
    (h : Interchangeable (a ++ dot :: token :: b) token (String.ofList name) b.head?) :
    Tree.parse (front ++ (name ++ back)) =
        .ok (mapAll (Edit.ofName front name token).token trees) ∧
      parse (front ++ (name ++ back)) =
        .ok (program.mapTrees (mapAll (Edit.ofName front name token).token)) := by
  have hordered : Token.Ordered (a ++ dot :: token :: b) := (Token.Scans.iff.mpr hs).ordered
  have hscan := Token.scan_member hs hdot hk hsource hfront hname
  have htrees := Tree.ofTokens_map (f := (Edit.ofName front name token).token) (fun _ => rfl) ht
  have hparse : Tree.parse (front ++ (name ++ back)) =
      .ok (mapAll (Edit.ofName front name token).token trees) := by
    rw [Tree.parse, hscan]
    exact htrees
  have hfits : (Edit.ofName front name token).recast.Fits _ false _ := fits_ofName hordered hdot hk h
  rw [← ofTokens_flatten ht, ← List.append_nil (flattenAll trees)] at hfits
  have hagree := ofTrees_agrees (recasts_of_fits trees (pairedAll_of_ofTokens ht) hfits)
  obtain ⟨_, hp', rfl⟩ := hagree.exists_ok hp
  refine ⟨hparse, ?_⟩
  rw [parse, hparse]
  exact hp'

/-- In `a.x(b)` the name is as good as the keyword `delete`, since no line ends behind it. -/
theorem parse_rename_delete : ∃ program token, program.statements.size = 2 ∧
    parse "a.x(b)\nc".toList = .ok program ∧
      parse "a.delete(b)\nc".toList =
        .ok (program.mapTrees (mapAll (Edit.ofName "a.".toList "delete".toList token).token)) := by
  have hs : Token.scan "a.x(b)\nc".toList = .ok ([⟨.ident, "a", 0, false⟩] ++ ⟨.punct, ".", 1, false⟩ ::
      ⟨.ident, "x", 2, false⟩ :: [⟨.openParen, "(", 3, false⟩, ⟨.ident, "b", 4, false⟩,
        ⟨.closeParen, ")", 5, false⟩, ⟨.ident, "c", 7, true⟩]) := by
    decide +kernel
  have ht : Tree.ofTokens ([⟨.ident, "a", 0, false⟩] ++ ⟨.punct, ".", 1, false⟩ ::
      ⟨.ident, "x", 2, false⟩ :: [⟨.openParen, "(", 3, false⟩, ⟨.ident, "b", 4, false⟩,
        ⟨.closeParen, ")", 5, false⟩, ⟨.ident, "c", 7, true⟩]) =
      .ok [.leaf ⟨.ident, "a", 0, false⟩, .leaf ⟨.punct, ".", 1, false⟩, .leaf ⟨.ident, "x", 2, false⟩,
        .group .paren ⟨.openParen, "(", 3, false⟩ ⟨.closeParen, ")", 5, false⟩
          [.leaf ⟨.ident, "b", 4, false⟩], .leaf ⟨.ident, "c", 7, true⟩] := rfl
  have hsize : (parse "a.x(b)\nc".toList).toOption.any (fun program => program.statements.size = 2) =
      true := by
    decide +kernel
  obtain ⟨program, hp, hsize⟩ := exists_of_any_toOption hsize
  have htrees := hp
  rw [parse, Tree.parse, hs] at htrees
  have hfree : Interchangeable ([⟨.ident, "a", 0, false⟩] ++ ⟨.punct, ".", 1, false⟩ ::
      ⟨.ident, "x", 2, false⟩ :: [⟨.openParen, "(", 3, false⟩, ⟨.ident, "b", 4, false⟩,
        ⟨.closeParen, ")", 5, false⟩, ⟨.ident, "c", 7, true⟩]) ⟨.ident, "x", 2, false⟩ "delete"
        (some ⟨.openParen, "(", 3, false⟩) :=
    ⟨.inr (by simp), by decide, by simp [Token.isPunct], by simp⟩
  have hsource : "a.x(b)\nc".toList = "a.".toList ++ ("x".toList ++ "(b)\nc".toList) := by decide +kernel
  have hnew : "a.delete(b)\nc".toList = "a.".toList ++ ("delete".toList ++ "(b)\nc".toList) := by
    decide +kernel
  have hname : String.ofList "delete".toList = "delete" := String.ofList_toList
  rw [← hname] at hfree
  have hresult := (parse_rename hs ht htrees rfl rfl hsource (by decide +kernel) (by decide +kernel) hfree).2
  rw [← hnew] at hresult
  exact ⟨program, _, of_decide_eq_true hsize, hp, hresult⟩

/-- **A keyword behind a dot is not always a name like others.** At the end of a line it is an operator, so
that the expression goes on. -/
theorem not_forall_parse_rename : ¬ ∀ (front back name : List Char) (dot token : Token) (a b : List Token)
    (program : Program), Token.scan (front ++ (token.text.toList ++ back)) = .ok (a ++ dot :: token :: b) →
      Tree.isDot (.leaf dot) = true → token.kind = .ident → Text.size front = token.start →
      Lexeme.isName name = true → parse (front ++ (token.text.toList ++ back)) = .ok program →
      ∃ program', parse (front ++ (name ++ back)) = .ok program' ∧
        program'.statements.size = program.statements.size := by
  intro hall
  have hs : Token.scan ("a.".toList ++ ("x".toList ++ "\nb.c()".toList)) = .ok ([⟨.ident, "a", 0, false⟩] ++ ⟨.punct, ".", 1, false⟩ ::
      ⟨.ident, "x", 2, false⟩ :: [⟨.ident, "b", 4, true⟩, ⟨.punct, ".", 5, false⟩,
        ⟨.ident, "c", 6, false⟩, ⟨.openParen, "(", 7, false⟩, ⟨.closeParen, ")", 8, false⟩]) := by
    decide +kernel
  have htwo : (parse ("a.".toList ++ ("x".toList ++ "\nb.c()".toList))).toOption.any (fun program => program.statements.size = 2) =
      true := by
    decide +kernel
  have hone : (parse ("a.".toList ++ ("delete".toList ++ "\nb.c()".toList))).toOption.any (fun program => program.statements.size = 1) =
      true := by
    decide +kernel
  obtain ⟨program, hp, htwo⟩ := exists_of_any_toOption htwo
  obtain ⟨other, hother, hone⟩ := exists_of_any_toOption hone
  obtain ⟨program', hp', hsame⟩ := hall "a.".toList "\nb.c()".toList "delete".toList _ ⟨.ident, "x", 2, false⟩ _ _ program hs
    rfl rfl rfl (by decide +kernel) hp
  obtain rfl : other = program' := Except.ok.inj (hother.symm.trans hp')
  rw [of_decide_eq_true hone, of_decide_eq_true htwo] at hsame
  cases hsame

end Program

end DeferredLog
