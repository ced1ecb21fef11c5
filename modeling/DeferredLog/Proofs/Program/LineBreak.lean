import DeferredLog.Proofs.Outline.Cut
import DeferredLog.Proofs.Program.Parses

/-!
# Programs with a line break before a body

A line break before the body of a function or class expression is no change for the language. Here it can be
one: where an expression ends is found first, from the lines that its trees stand on and without regard to the
heads of functions and classes, so that it ends at the line break if the tree before the body can end an
expression, as the parameters of a function and the name of a class can.

* `Program.parse_breakBefore`: a program stays one, and the same one, exactly if no expression on the way to the
  function or class ends at the line break.
* `Program.not_forall_parse_breakBefore`: one can end there, around a function that is assigned.
-/

namespace DeferredLog

open DeferredLog.Tree

namespace Program

open Outline

variable {source front back w : List Char} {c : Char} {trees : List Tree} {program : Program} {u : Spot}
  {o : Token}

/-- **A line break before the body of a function or class**, with indentation behind it, makes of a program the
same program with its tokens moved, or none. It makes none exactly if on the way to the function or class an
expression ends there. -/
theorem parse_breakBefore (htrees : Tree.parse source = .ok trees) (hp : parse source = .ok program)
    (hvisits : Visits (.top trees) u) (hbody : u.job.HasBody o) (hsource : source = front ++ back)
    (hfront : Text.size front = o.start) (hc : Text.isLineBreak c = true)
    (hw : ∀ d ∈ w, Text.isBlank d = true) :
    ((∃ program', parse (front ++ c :: w ++ back) = .ok program') ↔
      ∀ t, Visits (.top trees) t → Visits t u → t.job.cutsAt o.start = false) ∧
    ∀ program', parse (front ++ c :: w ++ back) = .ok program' →
      program' = program.mapTrees (breakBeforeAll o.start (Text.size (c :: w))) := by
  obtain ⟨tokens, trees', items, htrees', hparses, rfl⟩ := Parses.exists_of_parse hp
  obtain rfl : trees' = trees := Except.ok.inj (htrees'.symm.trans htrees)
  have htop := body_eq_ok_iff.mp hparses.body
  have hall : (Spot.top trees').job.read [] = tokens := by
    rw [← hparses.flattenAll_eq, Job.read, Spot.top, Job.trees, List.length_nil, Nat.sub_zero,
      List.take_length]
  have hordered : Token.Ordered ((Spot.top trees').job.read []) := hall ▸ hparses.ordered
  have hm : o ∈ tokens := hall ▸ hvisits.mem_read hbody htop
  obtain ⟨a, b, rfl⟩ := List.append_of_mem hm
  obtain ⟨_, hrun⟩ : Stands trees' u.front u.job.trees := hvisits.stands .here
  obtain ⟨_, hpaired⟩ := hrun.paired hparses.paired
  have hscan := Token.scan_breakBefore hparses.scan (hbody.kind_eq hpaired) hsource hfront hc hw
  have hbroken : Tree.parse (front ++ c :: w ++ back) =
      .ok (breakBeforeAll o.start (Text.size (c :: w)) trees') := by
    rw [Tree.parse, hscan]
    exact Tree.ofTokens_map (f := Token.breakBefore _ _) (fun _ => rfl) hparses.ofTokens
  have hreads : (∀ t, Visits (.top trees') t → Visits t u → t.job.cutsAt o.start = false) →
      parse (front ++ c :: w ++ back) =
        .ok ((ofOutline items).mapTrees (breakBeforeAll o.start (Text.size (c :: w)))) := by
    intro hcut
    have hreads : Reads (.body (breakBeforeAll o.start (Text.size (c :: w)) trees'))
        (Item.mapAll (breakBeforeAll o.start (Text.size (c :: w))) items) [] :=
      hvisits.reads_breakBefore hbody htop hordered hcut
    rw [parse, hbroken]
    show (Outline.body _).map ofOutline = _
    rw [body_eq_ok_iff.mpr hreads]
    exact congrArg Except.ok
      (ofOutline_eq_of_eraseAll (Item.eraseAll_mapAll _ items) (Item.statementsAll_mapAll _ items))
  have hcut : ∀ program', parse (front ++ c :: w ++ back) = .ok program' →
      ∀ t, Visits (.top trees') t → Visits t u → t.job.cutsAt o.start = false := by
    intro program' hp' t ht htu
    obtain ⟨_, _, items', htrees'', hparses', -⟩ := Parses.exists_of_parse hp'
    obtain rfl := Except.ok.inj (htrees''.symm.trans hbroken)
    exact ht.cutsAt_of_reads htu hbody htop hordered hparses.paired (body_eq_ok_iff.mp hparses'.body)
  refine ⟨⟨fun h => h.elim hcut, fun h => ⟨_, hreads h⟩⟩, fun program' hp' => ?_⟩
  exact Except.ok.inj (hp'.symm.trans (hreads (hcut program' hp')))

/-- In brackets the body of a function can stand on a line of its own. -/
theorem parse_breakBefore_inside : ∃ program,
    parse "[function () {a.d()}]".toList = .ok program ∧
      parse "[function () \n{a.d()}]".toList = .ok (program.mapTrees (breakBeforeAll 13 1)) := by
  have hscan : Token.scan "[function () {a.d()}]".toList = .ok (flattenAll
      [.group .bracket ⟨.openBracket, "[", 0, false⟩ ⟨.closeBracket, "]", 20, false⟩ (functionAt 1)]) := by
    decide +kernel
  have htrees : Tree.parse "[function () {a.d()}]".toList =
      .ok [.group .bracket ⟨.openBracket, "[", 0, false⟩ ⟨.closeBracket, "]", 20, false⟩ (functionAt 1)] := by
    rw [Tree.parse, hscan]
    rfl
  have hsome : (parse "[function () {a.d()}]".toList).toOption.any (fun _ => true) = true := by
    decide +kernel
  have hsome' : (parse "[function () \n{a.d()}]".toList).toOption.any (fun _ => true) = true := by
    decide +kernel
  obtain ⟨program, hp, -⟩ := exists_of_any_toOption hsome
  obtain ⟨program', hp', -⟩ := exists_of_any_toOption hsome'
  obtain ⟨_, _, items, htrees', hparses, -⟩ := Parses.exists_of_parse hp
  obtain rfl := Except.ok.inj (htrees.symm.trans htrees')
  have hstatement := leads_statement [] 1 (body_eq_ok_iff.mp hparses.body)
  obtain ⟨_, _, hreads⟩ := hstatement.reads
  have hexpression := leads_expression [] 1 hreads (by decide)
  obtain ⟨_, _, hreads⟩ := hexpression.reads
  have hinside := leads_inside [] 1 hreads
  obtain ⟨_, _, hreads⟩ := hinside.reads
  have hfunction := leads_function [⟨.openBracket, "[", 0, false⟩] 1 hreads (by decide)
  have hvisits : Visits (.top _) _ := .tail (.tail (.tail (.single hstatement) hexpression) hinside) hfunction
  have hsource : "[function () {a.d()}]".toList = "[function () ".toList ++ "{a.d()}]".toList := by
    decide +kernel
  obtain ⟨-, hsame⟩ := parse_breakBefore (w := []) htrees hp hvisits (.function rfl) hsource
    (by decide +kernel) (show Text.isLineBreak '\n' = true by decide) nofun
  refine ⟨program, hp, hp'.trans (congrArg Except.ok (hsame program' ?_))⟩
  exact hp'

/-- **A line break before the body of a function expression can end the statement around it.** In
`x = function () {a.d()}` it leaves the function without a body, and the text is no program. -/
theorem not_forall_parse_breakBefore : ¬ ∀ (source front back : List Char) (c : Char) (trees x : List Tree)
    (program : Program) (u : Spot) (o : Token), Tree.parse source = .ok trees → parse source = .ok program →
      Visits (.top trees) u → (u.job = .function false x ∨ u.job = .classBody false x) → u.job.HasBody o →
      source = front ++ back → Text.size front = o.start → Text.isLineBreak c = true →
        parse (front ++ c :: back) = .ok (program.mapTrees (breakBeforeAll o.start c.utf8Size)) := by
  intro hall
  have hscan : Token.scan "x = function () {a.d()}".toList =
      .ok (flattenAll (letterAt "x" 0 :: signAt "=" 2 :: functionAt 4)) := by
    decide +kernel
  have htrees : Tree.parse "x = function () {a.d()}".toList =
      .ok (letterAt "x" 0 :: signAt "=" 2 :: functionAt 4) := by
    rw [Tree.parse, hscan]
    rfl
  have hsome : (parse "x = function () {a.d()}".toList).toOption.any (fun _ => true) = true := by
    decide +kernel
  have hnone : (parse "x = function () \n{a.d()}".toList).toOption.isNone = true := by
    decide +kernel
  obtain ⟨program, hp, -⟩ := exists_of_any_toOption hsome
  obtain ⟨_, _, items, htrees', hparses, -⟩ := Parses.exists_of_parse hp
  obtain rfl := Except.ok.inj (htrees.symm.trans htrees')
  have hstatement := leads_statement [] 1 (body_eq_ok_iff.mp hparses.body)
  obtain ⟨_, _, hreads⟩ := hstatement.reads
  have hexpression := leads_expression [] 1 hreads (by decide)
  obtain ⟨_, _, hreads⟩ := hexpression.reads
  have hname := leads_plain [] 1 hreads (by decide)
  obtain ⟨_, _, hreads⟩ := hname.reads
  have hsign := leads_plain [⟨.ident, "x", 0, false⟩] 1 hreads (by decide)
  obtain ⟨_, _, hreads⟩ := hsign.reads
  have hfunction := leads_function [⟨.ident, "x", 0, false⟩, ⟨.punct, "=", 2, false⟩] 1 hreads (by decide)
  have hvisits : Visits (.top _) _ :=
    .tail (.tail (.tail (.tail (.single hstatement) hexpression) hname) hsign) hfunction
  have hsource : "x = function () {a.d()}".toList = "x = function () ".toList ++ "{a.d()}".toList := by
    decide +kernel
  have hbroken := hall _ _ _ '\n' _ _ program _ ⟨.openBrace, "\x7b", 16, false⟩ htrees hp hvisits (.inl rfl)
    (.function rfl) hsource (by decide +kernel) (by decide)
  have htext : "x = function () ".toList ++ '\n' :: "{a.d()}".toList = "x = function () \n{a.d()}".toList := by
    decide +kernel
  rw [← htext, hbroken] at hnone
  cases hnone

end Program

end DeferredLog
