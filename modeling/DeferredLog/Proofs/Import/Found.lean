import DeferredLog.Proofs.Import.Declaration
import DeferredLog.Proofs.Token.Scans

/-!
# Import declarations are found

The search for imports goes over the top of a program tree by tree, and goes on behind what an import takes. So
it comes to a declaration unless something before it is read as an import that takes the declaration along. In a
program only a member can be that whose name is the word `import`, and only if parts of clauses are all that
stands between it and the end of the declaration's clause.

* `Import.clauses_before`: the search comes to a declaration.
* `Import.start_ne_of_member`: it does not come to one that is taken along.
* `Import.ofTrees_declaration`: a declaration is found as what it is, once, but for three exceptions.
-/

namespace DeferredLog

open DeferredLog.Tree

/-! ## Places of trees -/

namespace Token.Ordered

variable {a b a' b' : List Tree} {t u : Tree}

/-- Trees that start at one place are the same one. -/
theorem eq_of_start_eq (h : Ordered (flattenAll (a ++ t :: b))) (he : a ++ t :: b = a' ++ u :: b')
    (hs : t.start = u.start) : a = a' ∧ t = u ∧ b = b' := by
  rcases List.append_eq_append_iff.mp he with ⟨c, rfl, hc⟩ | ⟨c, rfl, hc⟩
  · cases c with
    | nil => exact ⟨(List.append_nil a).symm, List.cons.inj hc⟩
    | cons _ c =>
      obtain ⟨rfl, rfl⟩ := List.cons.inj hc
      have hle := h.stop_le_start (u := u) (by simp)
      have hlt := h.start_lt_stop (t := t) (by simp)
      omega
  · cases c with
    | nil =>
      obtain ⟨rfl, rfl⟩ := List.cons.inj hc
      exact ⟨List.append_nil a', rfl, rfl⟩
    | cons _ c =>
      obtain ⟨rfl, rfl⟩ := List.cons.inj hc
      rw [he] at h
      have hle := h.stop_le_start (u := t) (by simp)
      have hlt := h.start_lt_stop (t := u) (by simp)
      omega

end Token.Ordered

namespace Import

/-! ## What stands before a declaration -/

namespace Declaration

theorem trees_append (d : Declaration) (after : List Tree) :
    d.trees ++ after = d.word :: (d.clause ++ d.source :: .leaf d.module :: (d.tail ++ after)) := by
  simp [trees]

/-- Whether a member with the name `import` stands before a declaration, and nothing but parts of clauses
between it and the end of the declaration's clause. -/
def Overrun (d : Declaration) (before : List Tree) : Prop :=
  ∃ front dot member rest names, before = front ++ dot :: member :: rest ∧ dot.isDot = true ∧
    member.isIdent "import" = true ∧ Parts (rest ++ d.word :: d.clause) names

end Declaration

/-- Statements, as far as they have the word `import` at the top: it starts a declaration, an import of a module
for its effect, a call or a property of the module, or it is the name of a member or of an export. -/
inductive Proper : List Tree → Prop
  | nil : Proper []
  | other {tree rest} : tree.isIdent "import" = false → Proper rest → Proper (tree :: rest)
  | declaration {rest} (d : Declaration) : Proper rest → Proper (d.trees ++ rest)
  | effect {word token rest} : word.isIdent "import" = true → token.kind = .string → Proper rest →
      Proper (word :: .leaf token :: rest)
  | call {word opening closing inside rest} : word.isIdent "import" = true → Proper rest →
      Proper (word :: .group .paren opening closing inside :: rest)
  | property {word dot rest} : word.isIdent "import" = true → dot.isPunct "." = true → Proper (dot :: rest) →
      Proper (word :: dot :: rest)
  | member {dot word rest} : dot.isDot = true → word.isIdent "import" = true → Proper rest →
      Proper (dot :: word :: rest)
  | exported {star as word source rest} : star.isPunct "*" = true → as.isIdent "as" = true →
      word.isIdent "import" = true → source.isIdent "from" = true → Proper rest →
      Proper (star :: as :: word :: source :: rest)

variable {tree : Tree} {trees taken front more before behind rest : List Tree} {names : List ImportName}
  {record : Import} {d : Declaration}

/-! ## What an import takes along -/

theorem ident?_of_isDot (h : tree.isDot = true) : tree.ident? = none := by
  rcases Bool.or_eq_true_iff.mp h with h | h
  · exact Tree.ident?_of_isPunct h
  · exact Tree.ident?_of_isPunct h

/-- A tree that is no name, no braces, no star and no comma is no part of a clause. -/
theorem not_parts (hname : tree.ident? = none) (hbraces : tree.inside? .brace = none)
    (hstar : tree.isPunct "*" = false) (hcomma : tree.isPunct "," = false) : ¬ Parts (tree :: rest) names := by
  intro hp
  cases hp with
  | name ht => rw [ht] at hname; cases hname
  | braces => simp [inside?] at hbraces
  | star hs => rw [hs] at hstar; cases hstar
  | comma hc => rw [hc] at hcomma; cases hcomma

theorem not_parts_of_isDot (h : tree.isDot = true) : ¬ Parts (tree :: rest) names := by
  have sign {text : String} (hp : tree.isPunct text = true) (hstar : text ≠ "*") (hcomma : text ≠ ",") :
      ¬ Parts (tree :: rest) names := by
    obtain ⟨token, rfl, -⟩ := Tree.isPunct_iff.mp hp
    exact not_parts (Tree.ident?_of_isPunct hp) rfl (Tree.isPunct_ne hp hstar) (Tree.isPunct_ne hp hcomma)
  rcases Bool.or_eq_true_iff.mp h with h | h
  · exact sign h (by decide) (by decide)
  · exact sign h (by decide) (by decide)

/-- A tree that is not in the second part of a list is in the first. -/
theorem exists_cut {closing : List Tree} (h : trees ++ closing = front ++ tree :: more) (ht : tree ∉ closing) :
    ∃ c, trees = front ++ tree :: c ∧ more = c ++ closing := by
  rcases List.append_eq_append_iff.mp h with ⟨c, rfl, hc⟩ | ⟨c, rfl, hc⟩
  · exact absurd (by simp [hc]) ht
  · cases c with
    | nil => exact absurd (by simp [show closing = tree :: more from hc.symm]) ht
    | cons t c =>
      obtain ⟨rfl, rfl⟩ := List.cons.inj hc
      exact ⟨c, rfl, rfl⟩

/-- A word `import` that is taken along is not in the end of an import. -/
theorem exists_cut_of_closing {source : Tree} {closing : List Tree} (hsource : source.isIdent "from" = true)
    (hclosing : Closing closing) (ht : tree.isIdent "import" = true)
    (h : trees ++ source :: closing = front ++ tree :: more) :
    ∃ c, trees = front ++ tree :: c ∧ more = c ++ source :: closing := by
  refine exists_cut h fun hm => ?_
  rcases List.mem_cons.mp hm with rfl | hm
  · rw [isIdent_import hsource (by decide)] at ht
    cases ht
  · rw [hclosing.isIdent_import tree hm] at ht
    cases ht

/-- A clause that starts as a name goes on with parts. -/
theorem Clause.parts_tail {defaultName : Option String} {clause : List Tree} {name : String}
    (h : Clause defaultName (tree :: clause) names) (ht : tree.ident? = some name) :
    ∃ more, Parts clause more := by
  cases h with
  | single => exact ⟨_, .nil⟩
  | bindings hbindings =>
    cases hbindings with
    | all hstar => rw [Tree.ident?_of_isPunct hstar] at ht; cases ht
    | list => cases ht
  | both _ hcomma hbindings => exact ⟨_, .comma hcomma hbindings.parts⟩

/-- A clause starts with the word that ends clauses only if that is its default name. -/
theorem Clause.isIdent_from {defaultName : Option String} {clause : List Tree}
    (h : Clause defaultName (tree :: clause) names) (hdefault : defaultName ≠ some "from") :
    tree.isIdent "from" = false := by
  cases h with
  | single hname | both hname => exact isIdent_ne hname.1 fun he => hdefault (congrArg _ he)
  | bindings hbindings =>
    cases hbindings with
    | all hstar => exact isIdent_of_isPunct hstar _
    | list => rfl

/-- Of what a re-export names only the new name can be the word `import`. -/
theorem Exported.of_word (h : Exported trees) (hcut : trees = front ++ tree :: more)
    (ht : tree.isIdent "import" = true) : more = [] ∧ ∃ star as, front = [star, as] ∧ as.isIdent "as" = true := by
  have hname := of_decide_eq_true ht
  cases h with
  | all hstar =>
    rcases front with _ | ⟨a, front⟩
    · obtain ⟨rfl, -⟩ := List.cons.inj hcut
      rw [Tree.ident?_of_isPunct hstar] at hname
      cases hname
    · simp at hcut
  | list =>
    rcases front with _ | ⟨a, front⟩
    · obtain ⟨rfl, -⟩ := List.cons.inj hcut
      cases hname
    · simp at hcut
  | @named star as named hstar has =>
    rcases front with _ | ⟨a, _ | ⟨b, _ | ⟨c, front⟩⟩⟩
    · obtain ⟨rfl, -⟩ := List.cons.inj hcut
      rw [Tree.ident?_of_isPunct hstar] at hname
      cases hname
    · simp only [List.cons_append, List.nil_append, List.cons.injEq] at hcut
      rw [← hcut.2.1, isIdent_import has (by decide)] at ht
      cases ht
    · simp only [List.cons_append, List.nil_append, List.cons.injEq] at hcut
      exact ⟨hcut.2.2.2.symm, star, as, by rw [← hcut.1, ← hcut.2.1], has⟩
    · simp at hcut

/-- An import takes a declaration along only if parts of clauses lead from it to the end of the declaration's
clause. -/
theorem Takes.parts_of_word (h : Takes tree taken) (hcut : taken = front ++ d.word :: more)
    (hbehind : more ++ rest = d.clause ++ d.source :: behind) (hdefault : d.defaultName ≠ some "from") :
    tree.isIdent "import" = true ∧ ∃ names, Parts (front ++ d.word :: d.clause) names := by
  obtain ⟨first, clause, hclause, -⟩ := d.clause_eq.string?_eq_none
  have hd := d.clause_eq
  have hword : d.word.ident? = some "import" := of_decide_eq_true d.word_eq
  have hparts := d.clause_eq.parts hdefault
  cases h with
  | effect _ hclosing =>
    have := hclosing.isIdent_import d.word (by simp [hcut])
    rw [d.word_eq] at this
    cases this
  | @clause parts names source closing himport hall hsource hclosing =>
    refine ⟨himport, ?_⟩
    obtain ⟨c, rfl, rfl⟩ := exists_cut_of_closing hsource hclosing d.word_eq hcut
    generalize hright : d.word :: c = right at hall
    cases hall.split rfl with
    | between hfront => exact hfront.append (.name hword (by decide) hparts)
    | @behindStar front star skipped renamed name more _ _ hfront hstar hrenamed =>
      obtain ⟨rfl, rfl⟩ := List.cons.inj hright
      rw [hclause] at hbehind hd ⊢
      obtain ⟨rfl, -⟩ := List.cons.inj hbehind
      obtain ⟨_, htail⟩ := hd.parts_tail hrenamed
      obtain ⟨all, happend⟩ := hfront.append (.star hstar hrenamed htail)
      exact ⟨all, by simpa using happend⟩
    | @beforeName front star skipped renamed name more _ _ hfront hstar hrenamed =>
      obtain ⟨rfl, rfl⟩ := List.cons.inj hright
      obtain ⟨all, happend⟩ := hfront.append (.star hstar hrenamed hparts)
      exact ⟨all, by simpa using happend⟩
  | reExport _ hexported hsource hclosing =>
    -- Of what a re-export names only the new name can be the word, and no clause can follow that.
    obtain ⟨c, hfront, rfl⟩ := exists_cut_of_closing hsource hclosing d.word_eq hcut
    obtain ⟨rfl, -⟩ := hexported.of_word hfront d.word_eq
    rw [hclause] at hbehind hd
    obtain ⟨rfl, -⟩ := List.cons.inj hbehind
    rw [hd.isIdent_from hdefault] at hsource
    cases hsource

/-- An import that takes along a member from which parts of clauses lead to a declaration takes the declaration
along as well, up to its module at least. -/
theorem Takes.rest_of_member {dot member : Tree} {between : List Tree} (h : Takes tree taken)
    (hcut : taken = front ++ [dot] ++ member :: more) (hdot : dot.isDot = true)
    (hmember : member.isIdent "import" = true)
    (hbehind : more ++ rest = between ++ d.word :: (d.clause ++ d.source :: .leaf d.module :: behind))
    (hparts : Parts (between ++ d.word :: d.clause) names) : rest <:+ behind := by
  cases h with
  | effect _ hclosing =>
    have := hclosing.isIdent_import member (by simp [hcut])
    rw [hmember] at this
    cases this
  | @clause parts names source closing himport hall hsource hclosing =>
    obtain ⟨c, rfl, rfl⟩ := exists_cut_of_closing hsource hclosing hmember hcut
    -- A dot is no part, so the member is a name behind a star or does not belong to parts at all.
    obtain ⟨more, hc⟩ : ∃ more, Parts c more := by
      rw [List.append_assoc, List.singleton_append] at hall
      generalize hright : dot :: member :: c = right at hall
      cases hall.split rfl with
      | between _ hb => exact absurd (hright ▸ hb) (not_parts_of_isDot hdot)
      | behindStar _ _ _ hb =>
        obtain ⟨-, hright⟩ := List.cons.inj hright
        obtain ⟨-, rfl⟩ := List.cons.inj hright
        exact ⟨_, hb⟩
      | beforeName _ _ hrenamed =>
        obtain ⟨rfl, -⟩ := List.cons.inj hright
        rw [ident?_of_isDot hdot] at hrenamed
        cases hrenamed
    have hends : c ++ source :: (closing ++ rest) =
        (between ++ d.word :: d.clause) ++ d.source :: .leaf d.module :: behind := by
      simpa using hbehind
    obtain ⟨-, hmodule⟩ := hc.unique hparts hsource d.source_eq hends
    obtain ⟨-, _⟩ := hclosing
    obtain ⟨-, hbehind⟩ := List.cons.inj hmodule
    exact ⟨_, hbehind⟩
  | reExport _ hexported hsource hclosing =>
    obtain ⟨c, hfront, rfl⟩ := exists_cut_of_closing hsource hclosing hmember hcut
    obtain ⟨-, star, as, hnamed, has⟩ := hexported.of_word hfront hmember
    obtain ⟨-, hdotas⟩ := List.append_inj' (show front ++ [dot] = [star] ++ [as] from hnamed) rfl
    rw [List.cons.inj hdotas |>.1] at hdot
    rw [isIdent, ident?_of_isDot hdot] at has
    cases has

/-! ## The search -/

/-- **The search comes to a declaration** if nothing before it takes it along. -/
theorem clauses_before (hdefault : d.defaultName ≠ some "from")
    (hfree : ∀ front word rest names, before = front ++ word :: rest → word.isIdent "import" = true →
      ¬ Parts (rest ++ d.word :: d.clause) names) (after : List Tree) :
    ∃ records, clauses 0 (before ++ (d.trees ++ after)) = records ++ clauses 0 (d.trees ++ after) ∧
      ∀ r ∈ records, ∃ t ∈ before, t.start = r.span.start := by
  -- An import takes several trees in one step, so the induction is on how many of them are left.
  induction hn : before.length using Nat.strongRecOn generalizing before with
  | _ n ih =>
  subst hn
  cases before with
  | nil => exact ⟨[], rfl, nofun⟩
  | cons t more =>
    have later {c : List Tree} (hs : c <:+ more) :
        ∃ records, clauses 0 (c ++ (d.trees ++ after)) = records ++ clauses 0 (d.trees ++ after) ∧
          ∀ r ∈ records, ∃ u ∈ t :: more, u.start = r.span.start := by
      have hle := hs.length_le
      obtain ⟨front, rfl⟩ := hs
      obtain ⟨records, hrecords, hstart⟩ := ih c.length (by rw [List.length_cons]; omega)
        (fun f word rest names hcut => hfree (t :: front ++ f) word rest names (by simp [hcut])) rfl
      exact ⟨records, hrecords, fun r hr => (hstart r hr).imp fun _ hu => ⟨by simp [hu.1], hu.2⟩⟩
    cases hat : at? t (more ++ (d.trees ++ after)) with
    | none =>
      rw [List.cons_append, clauses_of_at?_none hat]
      exact later (List.suffix_refl more)
    | some found =>
      obtain ⟨record, rest⟩ := found
      obtain ⟨taken, hcut, htakes⟩ := takes_of_at? hat
      obtain ⟨c, hs, rfl⟩ : ∃ c, c <:+ more ∧ rest = c ++ (d.trees ++ after) := by
        rcases List.append_eq_append_iff.mp hcut with ⟨c, rfl, hc⟩ | ⟨c, rfl, rfl⟩
        · rw [d.trees_append] at hc
          cases c with
          | nil => exact ⟨[], List.nil_suffix, by rw [List.nil_append, d.trees_append]; exact hc.symm⟩
          | cons w c =>
            obtain ⟨rfl, hbehind⟩ := List.cons.inj hc
            obtain ⟨himport, names, hparts⟩ := htakes.parts_of_word rfl hbehind.symm hdefault
            exact absurd hparts (hfree [] t more names rfl himport)
        · exact ⟨c, List.suffix_append taken c, rfl⟩
      obtain ⟨records, hrecords, hstart⟩ := later hs
      refine ⟨record :: records, by rw [List.cons_append, clauses_of_at? hat, hrecords]; rfl, ?_⟩
      exact List.forall_mem_cons.mpr ⟨⟨t, List.mem_cons_self, (at?_reaches hat).2.symm⟩, hstart⟩

theorem Parts.string?_eq_none (h : Parts (tree :: rest) names) : tree.string? = none := by
  cases h with
  | name ht => exact string?_of_ident? ht
  | braces => rfl
  | star hp | comma hp =>
    obtain ⟨token, rfl, ht⟩ := Tree.isPunct_iff.mp hp
    simp only [Token.isPunct, Bool.and_eq_true, decide_eq_true_eq] at ht
    simp [string?, ht.1]

/-- A word from which parts of clauses lead to a declaration is read as an import with its module. -/
theorem exists_at?_of_parts {between : List Tree} (ht : tree.isIdent "import" = true)
    (hparts : Parts (between ++ d.word :: d.clause) names) (behind : List Tree) :
    ∃ record rest, at? tree (between ++ d.word :: (d.clause ++ d.source :: .leaf d.module :: behind)) =
      some (record, rest) ∧ rest <:+ behind := by
  have hread : clause? (between ++ d.word :: (d.clause ++ d.source :: .leaf d.module :: behind)) =
      some (names, .leaf d.module :: behind) :=
    clause?_eq_some_iff.mpr ⟨_, d.source, by simp, d.source_eq, hparts⟩
  have heffect : named? .sideEffect tree.start []
      (between ++ d.word :: (d.clause ++ d.source :: .leaf d.module :: behind)) = none := by
    cases between with
    | nil => exact named?_eq_none (Parts.string?_eq_none hparts) ..
    | cons first between => exact named?_eq_none (Parts.string?_eq_none hparts) ..
  have hmodule := named?_leaf d.module_eq .static tree.start names behind
  obtain ⟨closing, hcut, ⟨_, _⟩⟩ := closing_of_named? hmodule
  obtain ⟨-, hbehind⟩ := List.cons.inj hcut
  have hat : at? tree (between ++ d.word :: (d.clause ++ d.source :: .leaf d.module :: behind)) =
      named? .static tree.start names (.leaf d.module :: behind) := by
    rw [at?, if_pos ht, static?, heffect, hread]
    rfl
  exact ⟨_, _, hat.trans hmodule, _, hbehind.symm⟩

theorem at?_eq_none_of_isDot (h : tree.isDot = true) (trees : List Tree) : at? tree trees = none := by
  simp [at?, isIdent, ident?_of_isDot h]

/-- **The search does not come to a declaration** that the import read at a member takes along. -/
theorem start_ne_of_member {member : Tree} {between after : List Tree}
    (hfront : front = [] ∨ ∃ f dot, front = f ++ [dot] ∧ dot.isDot = true)
    (hmember : member.isIdent "import" = true) (hparts : Parts (between ++ d.word :: d.clause) names)
    (ho : Token.Ordered (flattenAll (front ++ member :: (between ++ (d.trees ++ after))))) :
    ∀ r ∈ clauses 0 (front ++ member :: (between ++ (d.trees ++ after))), r.span.start ≠ d.word.start := by
  induction hn : front.length using Nat.strongRecOn generalizing front with
  | _ n ih =>
  subst hn
  have hplace : front ++ member :: (between ++ (d.trees ++ after)) =
      (front ++ member :: between) ++ d.word :: (d.clause ++ d.source :: .leaf d.module :: (d.tail ++ after)) := by
    simp [d.trees_append]
  have behind {rest : List Tree} (hs : rest <:+ d.tail ++ after) :
      ∀ r ∈ clauses 0 rest, r.span.start ≠ d.word.start := by
    intro r hr
    obtain ⟨⟨u, hu, hstart⟩, -⟩ := mem_clauses hr
    rw [hplace] at ho
    have hle := ho.stop_le_start (u := u) (by simp [hs.subset hu])
    have hlt := ho.start_lt_stop (t := d.word) (by simp)
    omega
  have ahead {t : Tree} (ht : t ∈ front ++ member :: between) : t.start ≠ d.word.start := by
    obtain ⟨a, b, hab⟩ := List.append_of_mem ht
    rw [hplace, hab, List.append_assoc] at ho
    have hle := ho.stop_le_start (u := d.word) (by simp)
    have hlt := ho.start_lt_stop (t := t) (by simp)
    omega
  cases front with
  | nil =>
    obtain ⟨record, rest, hat, hs⟩ := exists_at?_of_parts hmember hparts (d.tail ++ after)
    rw [← d.trees_append] at hat
    rw [List.nil_append, clauses_of_at? hat]
    refine List.forall_mem_cons.mpr ⟨?_, behind hs⟩
    rw [(at?_reaches hat).2]
    exact ahead (by simp)
  | cons t more =>
    have later {c : List Tree} (hs : c <:+ more) :
        ∀ r ∈ clauses 0 (c ++ member :: (between ++ (d.trees ++ after))), r.span.start ≠ d.word.start := by
      have hle := hs.length_le
      obtain ⟨front, rfl⟩ := hs
      refine ih c.length (by rw [List.length_cons]; omega) ?_ ?_ rfl
      · rcases List.eq_nil_or_concat c with rfl | ⟨f, last, rfl⟩
        · exact .inl rfl
        · obtain ⟨f', dot, hlast, hdot⟩ := hfront.resolve_left (by simp)
          have hconcat : (t :: (front ++ f)).concat last = f'.concat dot := by simpa using hlast
          obtain ⟨-, rfl⟩ := List.concat_inj.mp hconcat
          exact .inr ⟨f, last, List.concat_eq_append, hdot⟩
      · rw [← List.cons_append, List.append_assoc, flattenAll_append] at ho
        exact ho.right
    cases hat : at? t (more ++ member :: (between ++ (d.trees ++ after))) with
    | none =>
      rw [List.cons_append, clauses_of_at?_none hat]
      exact later (List.suffix_refl more)
    | some found =>
      obtain ⟨record, rest⟩ := found
      rw [List.cons_append, clauses_of_at? hat]
      refine List.forall_mem_cons.mpr ⟨by rw [(at?_reaches hat).2]; exact ahead (by simp), ?_⟩
      obtain ⟨taken, hcut, htakes⟩ := takes_of_at? hat
      rcases List.append_eq_append_iff.mp hcut with ⟨c, rfl, hc⟩ | ⟨c, rfl, rfl⟩
      · cases c with
        | nil => exact (show member :: (between ++ (d.trees ++ after)) = rest from hc) ▸ later List.nil_suffix
        | cons m c =>
          -- An earlier import takes the member along, and then it takes the declaration along as well.
          obtain ⟨rfl, hbehind⟩ := List.cons.inj hc
          obtain ⟨f, dot, hlast, hdot⟩ := hfront.resolve_left (by simp)
          cases f with
          | nil =>
            obtain ⟨rfl, -⟩ := List.cons.inj hlast
            rw [at?_eq_none_of_isDot hdot] at hat
            cases hat
          | cons _ f =>
            obtain ⟨rfl, rfl⟩ := List.cons.inj (show t :: more = _ :: (f ++ [dot]) from hlast)
            rw [d.trees_append] at hbehind
            exact behind (htakes.rest_of_member rfl hdot hmember hbehind.symm hparts)
      · exact later (List.suffix_append taken c)

/-! ## Words in statements -/

theorem Bindings.isIdent_import (h : Bindings trees names) : ∀ t ∈ trees, t.isIdent "import" = false := by
  cases h with
  | all hstar has hname =>
    simpa using ⟨isIdent_of_isPunct hstar _, Import.isIdent_import has (by decide), hname.isIdent_import⟩
  | list => simp [isIdent, ident?]

theorem Clause.isIdent_import {defaultName : Option String} (h : Clause defaultName trees names) :
    ∀ t ∈ trees, t.isIdent "import" = false := by
  cases h with
  | single hname => simpa using hname.isIdent_import
  | bindings hbindings => exact hbindings.isIdent_import
  | both hname hcomma hbindings =>
    simpa using ⟨hname.isIdent_import, isIdent_of_isPunct hcomma _, hbindings.isIdent_import⟩

/-- Only the first tree of a declaration is the word `import`. -/
theorem Declaration.isIdent_import (d : Declaration) :
    ∀ t ∈ d.clause ++ d.source :: .leaf d.module :: d.tail, t.isIdent "import" = false := by
  intro t ht
  rcases List.mem_append.mp ht with ht | ht
  · exact d.clause_eq.isIdent_import t ht
  rcases List.mem_cons.mp ht with rfl | ht
  · exact Import.isIdent_import d.source_eq (by decide)
  · exact (Closing.mk d.module_eq d.tail_eq).isIdent_import t ht

/-- A clause with the word behind it is no run of parts. -/
theorem Clause.not_parts {defaultName : Option String} {all : List ImportName} {source : Tree}
    (h : Clause defaultName trees all) (hsource : source.isIdent "from" = true) (rest : List Tree) :
    ¬ Parts (trees ++ source :: rest) names := by
  by_cases hdefault : defaultName = some "from"
  · subst hdefault
    cases h with
    | single hname | both hname => exact fun hp => (hp.of_name hname.1).1 rfl
  · exact (h.parts hdefault).not_from hsource

/-- Words that are the names of members stay so behind more trees, in which no other word leads to the end. -/
theorem exists_dot_append {word : Tree} (pre : List Tree)
    (hpre : ∀ f c, pre = f ++ word :: c → Parts (c ++ (trees ++ more)) names →
      ∃ g dot, f = g ++ [dot] ∧ dot.isDot = true)
    (htrees : ∀ {f}, trees = f ++ word :: rest → ∃ g dot, f = g ++ [dot] ∧ dot.isDot = true)
    (hcut : pre ++ trees = front ++ word :: rest) (hparts : Parts (rest ++ more) names) :
    ∃ g dot, front = g ++ [dot] ∧ dot.isDot = true := by
  rcases List.append_eq_append_iff.mp hcut with ⟨a, rfl, ha⟩ | ⟨c, rfl, hc⟩
  · obtain ⟨g, dot, rfl, hdot⟩ := htrees ha
    exact ⟨pre ++ g, dot, by simp, hdot⟩
  · cases c with
    | nil =>
      obtain ⟨g, dot, hg, -⟩ := htrees (f := []) hc.symm
      simp at hg
    | cons w c =>
      obtain ⟨rfl, rfl⟩ := List.cons.inj hc
      exact hpre front c rfl (by simpa using hparts)

/-- In statements only a member can have the word `import` for its name where parts of clauses go on to the
end. -/
theorem Proper.exists_dot (h : Proper before) {word : Tree} (hcut : before = front ++ word :: rest)
    (hword : word.isIdent "import" = true) (hparts : Parts (rest ++ more) names) :
    ∃ g dot, front = g ++ [dot] ∧ dot.isDot = true := by
  have hname : word.ident? = some "import" := of_decide_eq_true hword
  induction h generalizing front with
  | nil => simp at hcut
  | @other tree trees htree _ ih =>
    refine exists_dot_append [tree] (fun f c hf _ => ?_) ih hcut hparts
    rcases f with _ | ⟨a, f⟩
    · obtain ⟨rfl, -⟩ := List.cons.inj hf
      rw [htree] at hword
      cases hword
    · simp at hf
  | @declaration trees d _ ih =>
    refine exists_dot_append d.trees (fun f c hf hp => ?_) ih hcut hparts
    rcases f with _ | ⟨a, f⟩
    · obtain ⟨-, rfl⟩ := List.cons.inj hf
      rw [List.append_assoc] at hp
      exact absurd hp (d.clause_eq.not_parts d.source_eq _)
    · obtain ⟨-, hf⟩ := List.cons.inj hf
      rw [d.isIdent_import word (by simp [hf])] at hword
      cases hword
  | @effect first token trees _ hk _ ih =>
    refine exists_dot_append [first, .leaf token] (fun f c hf hp => ?_) ih hcut hparts
    rcases f with _ | ⟨a, _ | ⟨b, f⟩⟩
    · obtain ⟨-, rfl⟩ := List.cons.inj hf
      have := hp.string?_eq_none
      simp [string?, hk] at this
    · simp only [List.cons_append, List.nil_append, List.cons.injEq] at hf
      rw [← hf.2.1] at hname
      simp [ident?, hk] at hname
    · simp at hf
  | @call first opening closing inside trees _ _ ih =>
    refine exists_dot_append [first, .group .paren opening closing inside] (fun f c hf hp => ?_) ih hcut
      hparts
    rcases f with _ | ⟨a, _ | ⟨b, f⟩⟩
    · obtain ⟨-, rfl⟩ := List.cons.inj hf
      exact absurd hp (not_parts rfl rfl rfl rfl)
    · simp only [List.cons_append, List.nil_append, List.cons.injEq] at hf
      rw [← hf.2.1] at hname
      cases hname
    · simp at hf
  | @property first dot trees _ hdot _ ih =>
    refine exists_dot_append [first] (fun f c hf hp => ?_) ih hcut hparts
    rcases f with _ | ⟨a, f⟩
    · obtain ⟨-, rfl⟩ := List.cons.inj hf
      exact absurd hp (not_parts_of_isDot (by simp [isDot, hdot]))
    · simp at hf
  | @member dot first trees hdot _ _ ih =>
    refine exists_dot_append [dot, first] (fun f c hf hp => ?_) ih hcut hparts
    rcases f with _ | ⟨a, _ | ⟨b, f⟩⟩
    · obtain ⟨rfl, -⟩ := List.cons.inj hf
      rw [ident?_of_isDot hdot] at hname
      cases hname
    · simp only [List.cons_append, List.nil_append, List.cons.injEq] at hf
      exact ⟨[], a, rfl, hf.1 ▸ hdot⟩
    · simp at hf
  | @exported star as first source trees hstar has _ hsource _ ih =>
    refine exists_dot_append [star, as, first, source] (fun f c hf hp => ?_) ih hcut hparts
    rcases f with _ | ⟨a, _ | ⟨b, _ | ⟨d, _ | ⟨e, f⟩⟩⟩⟩
    · obtain ⟨rfl, -⟩ := List.cons.inj hf
      rw [Tree.ident?_of_isPunct hstar] at hname
      cases hname
    · simp only [List.cons_append, List.nil_append, List.cons.injEq] at hf
      rw [← hf.2.1, isIdent_import has (by decide)] at hword
      cases hword
    · simp only [List.cons_append, List.nil_append, List.cons.injEq] at hf
      rw [← hf.2.2.2] at hp
      exact absurd rfl (hp.of_name (of_decide_eq_true hsource)).1
    · simp only [List.cons_append, List.nil_append, List.cons.injEq] at hf
      rw [← hf.2.2.2.1, isIdent_import hsource (by decide)] at hword
      cases hword
    · simp at hf

/-! ## Declarations in programs -/

/-- A search for static imports is not concerned with calls. -/
theorem filter_ofTrees_eq_singleton_iff (span : Span) :
    (ofTrees trees).filter (fun r => r.kind = .static ∧ span.contains r.span.start) = [record] ↔
      (clauses 0 trees).filter (fun r => r.kind = .static ∧ span.contains r.span.start) = [record] := by
  have hcalls : (calls false trees).filter (fun r => r.kind = .static ∧ span.contains r.span.start) = [] :=
    List.filter_eq_nil_iff.mpr fun r hr => by simp [(dynamic_of_mem_calls trees hr).1]
  have hperm := (List.mergeSort_perm (clauses 0 trees ++ calls false trees)
    fun a b => a.span.start ≤ b.span.start).filter (fun r => r.kind = .static ∧ span.contains r.span.start)
  rw [List.filter_append, hcalls, List.append_nil] at hperm
  rw [← List.perm_singleton, ← List.perm_singleton]
  exact ⟨hperm.symm.trans, hperm.trans⟩

/-- A clause that is listed was read at one of the trees. -/
theorem exists_at?_of_mem_clauses (h : record ∈ clauses 0 trees) :
    ∃ front tree behind rest, trees = front ++ tree :: behind ∧ at? tree behind = some (record, rest) := by
  induction trees using clauses_induction with
  | nil => cases h
  | found tree trees first rest hat ih =>
    rw [clauses_of_at? hat] at h
    rcases List.mem_cons.mp h with rfl | h
    · exact ⟨[], tree, trees, rest, rfl, hat⟩
    · obtain ⟨front, tree', behind, rest', rfl, hat'⟩ := ih h
      obtain ⟨taken, htaken⟩ := (at?_reaches hat).1.suffix
      exact ⟨tree :: (taken ++ front), tree', behind, rest', by simp [← htaken], hat'⟩
  | none tree trees hat ih =>
    rw [clauses_of_at?_none hat] at h
    obtain ⟨front, tree', behind, rest', rfl, hat'⟩ := ih h
    exact ⟨tree :: front, tree', behind, rest', rfl, hat'⟩

theorem ordered_of_parse {source : List Char} (h : Tree.parse source = .ok trees) :
    Token.Ordered (flattenAll trees) := by
  obtain ⟨tokens, hscan, hbuilt⟩ := parse_eq_ok_iff.mp h
  rw [ofTokens_flatten hbuilt]
  exact (Token.Scans.iff.mpr hscan).ordered

/-- The last tree of a declaration stands behind its word. -/
theorem Declaration.exists_last (d : Declaration) :
    ∃ front last, d.trees = d.word :: front ++ [last] ∧ stopOf d.trees = last.stop := by
  rcases List.eq_nil_or_concat (d.clause ++ d.source :: .leaf d.module :: d.tail) with hnil | ⟨front, last, hcut⟩
  · simp at hnil
  · have htrees : d.trees = d.word :: front ++ [last] := by rw [trees, hcut]; simp
    exact ⟨front, last, htrees, by rw [htrees, stopOf_append _ (List.cons_ne_nil last [])]; rfl⟩

theorem Declaration.stopOf_trees (d : Declaration) : stopOf d.trees = stopOf (.leaf d.module :: d.tail) := by
  have hcut : d.trees = (d.word :: (d.clause ++ [d.source])) ++ .leaf d.module :: d.tail := by simp [trees]
  rw [hcut, stopOf_append _ (List.cons_ne_nil _ _)]

theorem Declaration.contains_iff (d : Declaration) {offset : Nat} :
    d.record.span.contains offset = true ↔ d.word.start ≤ offset ∧ offset < stopOf d.trees := by
  rw [Span.contains, Bool.and_eq_true, decide_eq_true_eq, decide_eq_true_eq, record]

/-- Where attributes are read the import ends with them or with a tree behind them. -/
theorem exists_stop_of_startsAttributes (h : Declaration.StartsAttributes trees) (stop : Nat) :
    ∃ t ∈ trees, (clauseTail stop trees).2 = t.stop := by
  obtain ⟨attributes, rest, rfl, hattributes⟩ := h
  rw [clauseTail_eq, pastAttributes_append hattributes]
  obtain @⟨word, opening, closing, inside⟩ := hattributes
  have here : ∃ t ∈ [word, .group .brace opening closing inside] ++ rest, closing.stop = t.stop :=
    ⟨.group .brace opening closing inside, by simp, rfl⟩
  cases rest with
  | nil => exact here
  | cons next rest =>
    by_cases hsemicolon : next.isPunct ";" = true
    · exact ⟨next, by simp, by simp [pastSemicolon, hsemicolon]⟩
    · rw [Bool.not_eq_true] at hsemicolon
      rw [pastSemicolon_of_not (show Outline.startsWith (isPunct ";") (next :: rest) = false from hsemicolon)]
      exact here

section Found

variable {after : List Tree}

theorem append_trees (d : Declaration) (before after : List Tree) : before ++ (d.trees ++ after) =
    before ++ d.word :: (d.clause ++ d.source :: .leaf d.module :: (d.tail ++ after)) := by
  rw [d.trees_append]

/-- A declaration that is found is read from its own word on. -/
theorem exists_at?_of_record_mem (ho : Token.Ordered (flattenAll (before ++ (d.trees ++ after))))
    (hmem : d.record ∈ clauses 0 (before ++ (d.trees ++ after))) :
    ∃ rest, at? d.word (d.clause ++ d.source :: .leaf d.module :: (d.tail ++ after)) = some (d.record, rest) := by
  obtain ⟨front, tree, behind, rest, hcut, hat⟩ := exists_at?_of_mem_clauses hmem
  rw [append_trees] at ho hcut
  obtain ⟨-, rfl, rfl⟩ := ho.eq_of_start_eq hcut (at?_reaches hat).2
  exact ⟨rest, hat⟩

/-- A declaration that ends with its module is not read as what it is where attributes would be read along. -/
theorem not_startsAttributes_of_at? (ho : Token.Ordered (flattenAll (before ++ (d.trees ++ after))))
    (hat : at? d.word (d.clause ++ d.source :: .leaf d.module :: (d.tail ++ after)) = some (d.record, rest))
    (htail : d.tail = []) : ¬ Declaration.StartsAttributes after := by
  intro hattributes
  have hdefault : d.defaultName ≠ some "from" := by
    intro hdefault
    rw [d.at?_eq_none hdefault] at hat
    cases hat
  rw [d.at?_eq hdefault, htail, List.nil_append] at hat
  have hstop : (clauseTail d.module.stop after).2 = d.record.span.stop :=
    congrArg (fun r => r.1.span.stop) (Option.some.inj hat)
  obtain ⟨u, hu, hends⟩ := exists_stop_of_startsAttributes hattributes d.module.stop
  have hrecord : d.record.span.stop = d.module.stop := by
    rw [Declaration.record, d.stopOf_trees, htail]
    rfl
  have hplace : before ++ (d.trees ++ after) =
      (before ++ d.word :: (d.clause ++ [d.source])) ++ .leaf d.module :: after := by
    simp [Declaration.trees, htail]
  rw [hplace] at ho
  have hle := ho.stop_le_start hu
  have hlt := ho.start_lt_stop (t := u) (by simp [hu])
  rw [Tree.stop] at hle
  omega

/-- Trees before a declaration start before it, and trees behind it start behind its end. -/
theorem contains_start (ho : Token.Ordered (flattenAll (before ++ (d.trees ++ after)))) :
    d.record.span.contains d.record.span.start = true ∧
      (∀ t ∈ before, d.record.span.contains t.start = false) ∧
      ∀ t ∈ after, d.record.span.contains t.start = false := by
  obtain ⟨init, last, htrees, hstop⟩ := d.exists_last
  have hplace : before ++ (d.trees ++ after) = (before ++ d.word :: init) ++ last :: after := by simp [htrees]
  have hword := (append_trees d before after ▸ ho).start_lt_stop (t := d.word) (by simp)
  refine ⟨?_, fun t ht => ?_, fun t ht => ?_⟩
  · rw [hplace, List.append_assoc, List.cons_append] at ho
    have hle := ho.stop_le_start (u := last) (by simp)
    have hlast := ho.start_lt_stop (t := last) (by simp)
    exact d.contains_iff.mpr ⟨Nat.le_refl _, show d.word.start < stopOf d.trees by omega⟩
  · obtain ⟨a, b, rfl⟩ := List.append_of_mem ht
    rw [List.append_assoc] at ho
    have hle := ho.stop_le_start (u := d.word) (by simp [htrees])
    have hlt := ho.start_lt_stop (t := t) (by simp)
    rw [← Bool.not_eq_true, d.contains_iff]
    omega
  · rw [hplace] at ho
    have hle := ho.stop_le_start ht
    rw [← Bool.not_eq_true, d.contains_iff]
    omega

/-- A declaration that the search comes to, and that is read as what it is, is all that is found in it. -/
theorem filter_clauses_of_at? {records : List Import}
    (ho : Token.Ordered (flattenAll (before ++ (d.trees ++ after))))
    (hclauses : clauses 0 (before ++ (d.trees ++ after)) = records ++ clauses 0 (d.trees ++ after))
    (hstart : ∀ r ∈ records, ∃ t ∈ before, t.start = r.span.start)
    (hat : at? d.word (d.clause ++ d.source :: .leaf d.module :: (d.tail ++ after)) = some (d.record, after)) :
    (clauses 0 (before ++ (d.trees ++ after))).filter
      (fun r => r.kind = .static ∧ d.record.span.contains r.span.start) = [d.record] := by
  obtain ⟨hbegins, hbefore, hbehind⟩ := contains_start ho
  have none {records : List Import} (h : ∀ r ∈ records, d.record.span.contains r.span.start = false) :
      records.filter (fun r => r.kind = .static ∧ d.record.span.contains r.span.start) = [] :=
    List.filter_eq_nil_iff.mpr fun r hr => by simp [h r hr]
  have hearlier : ∀ r ∈ records, d.record.span.contains r.span.start = false := by
    intro r hr
    obtain ⟨t, ht, hat⟩ := hstart r hr
    exact hat ▸ hbefore t ht
  have hlater : ∀ r ∈ clauses 0 after, d.record.span.contains r.span.start = false := by
    intro r hr
    obtain ⟨⟨t, ht, hat⟩, -⟩ := mem_clauses hr
    exact hat ▸ hbehind t ht
  rw [hclauses, d.trees_append, clauses_of_at? hat, List.filter_append, none hearlier, List.nil_append,
    List.filter_cons_of_pos (by simpa using ⟨rfl, hbegins⟩), none hlater]

/-- **Among statements a declaration is found as what it is**: of the static imports only one starts in it, and that
one has its names, its module and its end. There are three exceptions. A declaration with the default name `from`
is not found, because that word is taken for the end of its clause. A declaration is taken along by what is read
as an import at a member with the name `import`, if only parts of clauses stand in between. And the word `assert`
and a block that follow a declaration on lines of their own are taken for its attributes. -/
theorem ofTrees_declaration {source : List Char} {after : List Tree} (d : Declaration)
    (h : Tree.parse source = .ok (before ++ (d.trees ++ after))) (hbefore : Proper before)
    (hafter : d.EndsBefore after) :
    (ofTrees (before ++ (d.trees ++ after))).filter
        (fun r => r.kind = .static ∧ d.record.span.contains r.span.start) = [d.record] ↔
      d.defaultName ≠ some "from" ∧ ¬ d.Overrun before ∧
        ¬ (d.tail = [] ∧ Declaration.StartsAttributes after) := by
  have ho := ordered_of_parse h
  rw [filter_ofTrees_eq_singleton_iff]
  constructor
  · intro hfound
    have hmem : d.record ∈ clauses 0 (before ++ (d.trees ++ after)) :=
      (List.mem_filter.mp (hfound ▸ List.mem_singleton_self d.record)).1
    obtain ⟨rest, hat⟩ := exists_at?_of_record_mem ho hmem
    refine ⟨fun hdefault => ?_, ?_, fun ⟨htail, hattributes⟩ => ?_⟩
    · rw [d.at?_eq_none hdefault] at hat
      cases hat
    · rintro ⟨front, dot, member, between, names, rfl, hdot, hmember, hparts⟩
      have hlist : front ++ dot :: member :: between ++ (d.trees ++ after) =
          (front ++ [dot]) ++ member :: (between ++ (d.trees ++ after)) := by simp
      rw [hlist] at ho hmem
      exact start_ne_of_member (.inr ⟨front, dot, rfl, hdot⟩) hmember hparts ho d.record hmem rfl
    · exact not_startsAttributes_of_at? ho hat htail hattributes
  · rintro ⟨hdefault, hoverrun, hattributes⟩
    have hfree : ∀ front word rest names, before = front ++ word :: rest → word.isIdent "import" = true →
        ¬ Parts (rest ++ d.word :: d.clause) names := by
      intro front word rest names hcut himport hparts
      obtain ⟨f, dot, rfl, hdot⟩ := hbefore.exists_dot hcut himport hparts
      exact hoverrun ⟨f, dot, word, rest, names, by simpa using hcut, hdot, himport, hparts⟩
    obtain ⟨records, hclauses, hstart⟩ := clauses_before hdefault hfree after
    have htail : clauseTail d.module.stop (d.tail ++ after) = (after, stopOf d.trees) := by
      rw [d.stopOf_trees]
      exact d.tail_eq.clauseTail_eq hafter.semicolon (fun hnone hs => hattributes ⟨hnone, hs⟩) d.module
    have hat : at? d.word (d.clause ++ d.source :: .leaf d.module :: (d.tail ++ after)) =
        some (d.record, after) := by
      rw [d.at?_eq hdefault, htail]
      rfl
    exact filter_clauses_of_at? ho hclauses hstart hat

end Found

/-! ## Two declarations -/

/-- A member with the name `import`, and the end of its statement. -/
def memberStatement : List Tree :=
  [.leaf ⟨.ident, "x", 0, false⟩, .leaf ⟨.punct, ".", 1, false⟩, .leaf ⟨.ident, "import", 2, false⟩,
    .leaf ⟨.punct, ";", 8, false⟩]

/-- A declaration with the words of clauses for names. -/
def wordsDeclaration : Declaration where
  word := .leaf ⟨.ident, "import", 10, true⟩
  clause := [.leaf ⟨.ident, "as", 17, false⟩, .leaf ⟨.punct, ",", 19, false⟩,
    .group .brace ⟨.openBrace, "\x7b", 21, false⟩ ⟨.closeBrace, "\x7d", 41, false⟩
      [.leaf ⟨.ident, "from", 23, false⟩, .leaf ⟨.punct, ",", 27, false⟩, .leaf ⟨.string, "'a-b'", 29, false⟩,
        .leaf ⟨.ident, "as", 35, false⟩, .leaf ⟨.ident, "b", 38, false⟩, .leaf ⟨.punct, ",", 39, false⟩]]
  source := .leaf ⟨.ident, "from", 43, false⟩
  module := ⟨.string, "'./m'", 48, false⟩
  attributes := [.leaf ⟨.ident, "with", 54, false⟩,
    .group .brace ⟨.openBrace, "\x7b", 59, false⟩ ⟨.closeBrace, "\x7d", 61, false⟩ []]
  semicolon := [.leaf ⟨.punct, ";", 62, false⟩]
  defaultName := some "as"
  names := [⟨"default", "as"⟩, ⟨"from", "from"⟩, ⟨"a-b", "b"⟩]
  word_eq := by decide +kernel
  clause_eq := by
    have hfrom : Entry [.leaf ⟨.ident, "from", 23, false⟩] ⟨"from", "from"⟩ := .same rfl
    have hquoted : Entry [.leaf ⟨.string, "'a-b'", 29, false⟩, .leaf ⟨.ident, "as", 35, false⟩,
        .leaf ⟨.ident, "b", 38, false⟩] ⟨specifierOf ⟨.string, "'a-b'", 29, false⟩, "b"⟩ :=
      .quoted rfl (by decide +kernel) rfl
    have hcomma : isPunct "," (.leaf ⟨.punct, ",", 27, false⟩) = true := by decide +kernel
    have htrailing : isPunct "," (.leaf ⟨.punct, ",", 39, false⟩) = true := by decide +kernel
    have hentries := Entries.cons hfrom hcomma (.cons hquoted htrailing .nil)
    rw [show specifierOf ⟨.string, "'a-b'", 29, false⟩ = "a-b" by decide +kernel] at hentries
    exact .both ⟨rfl, by decide +kernel⟩ (by decide +kernel) (.list hentries)
  source_eq := by decide +kernel
  module_eq := rfl
  tail_eq := ⟨.inr ⟨.inl (by decide +kernel)⟩, .inr ⟨_, rfl, by decide +kernel⟩⟩

/-- A declaration with the words of clauses for names, attributes and a semicolon, behind a member with the name
`import` whose statement is at its end. -/
theorem ofTrees_declaration_words : ∃ after,
    Tree.parse "x.import;\nimport as, \x7b from, 'a-b' as b, \x7d from './m' with \x7b \x7d;\nf".toList =
        .ok (memberStatement ++ (wordsDeclaration.trees ++ after)) ∧
      Proper memberStatement ∧ wordsDeclaration.EndsBefore after ∧
      (ofTrees (memberStatement ++ (wordsDeclaration.trees ++ after))).filter
          (fun r => r.kind = .static ∧ wordsDeclaration.record.span.contains r.span.start) =
        [⟨.static, ⟨10, 63⟩, some "./m", [⟨"default", "as"⟩, ⟨"from", "from"⟩, ⟨"a-b", "b"⟩]⟩] := by
  have hparse : Tree.parse
      "x.import;\nimport as, \x7b from, 'a-b' as b, \x7d from './m' with \x7b \x7d;\nf".toList =
        .ok (memberStatement ++ (wordsDeclaration.trees ++ [.leaf ⟨.ident, "f", 64, true⟩])) :=
    parse_of_scan (by decide +kernel) (by simp [PairedAll, Tree.Paired, memberStatement, wordsDeclaration,
      Declaration.trees, Declaration.tail, opened?, closed?])
  have hproper : Proper memberStatement :=
    .other (by decide +kernel) (.member (by decide +kernel) (by decide +kernel) (.other (by decide +kernel) .nil))
  have htail : wordsDeclaration.tail ≠ [] := List.cons_ne_nil _ _
  have hends : wordsDeclaration.EndsBefore [.leaf ⟨.ident, "f", 64, true⟩] :=
    ⟨fun h => absurd h (List.cons_ne_nil _ _), fun h => absurd h htail⟩
  have hrecord : wordsDeclaration.record =
      ⟨.static, ⟨10, 63⟩, some "./m", [⟨"default", "as"⟩, ⟨"from", "from"⟩, ⟨"a-b", "b"⟩]⟩ := by
    decide +kernel
  have hoverrun : ¬ wordsDeclaration.Overrun memberStatement := by
    rintro ⟨front, dot, member, rest, names, hcut, hdot, -, hparts⟩
    simp only [memberStatement] at hcut
    rcases front with _ | ⟨_, _ | ⟨_, _ | ⟨_, front⟩⟩⟩
    · obtain ⟨rfl, -⟩ := List.cons.inj hcut
      exact absurd hdot (by decide +kernel)
    · simp only [List.cons_append, List.nil_append, List.cons.injEq] at hcut
      rw [← hcut.2.2.2] at hparts
      exact absurd hparts (not_parts rfl rfl (by decide +kernel) (by decide +kernel))
    · simp only [List.cons_append, List.nil_append, List.cons.injEq] at hcut
      rw [← hcut.2.2.1] at hdot
      exact absurd hdot (by decide +kernel)
    · have hlength := congrArg List.length hcut
      simp only [List.cons_append, List.length_cons, List.length_append, List.length_nil] at hlength
      omega
  refine ⟨_, hparse, hproper, hends, ?_⟩
  rw [← hrecord]
  exact (ofTrees_declaration wordsDeclaration hparse hproper hends).mpr
    ⟨by decide, hoverrun, fun h => htail h.1⟩

/-- A declaration with the default name `from`. -/
def fromDeclaration : Declaration where
  word := .leaf ⟨.ident, "import", 0, false⟩
  clause := [.leaf ⟨.ident, "from", 7, false⟩]
  source := .leaf ⟨.ident, "from", 12, false⟩
  module := ⟨.string, "\"m\"", 17, false⟩
  attributes := []
  semicolon := []
  defaultName := some "from"
  names := [⟨"default", "from"⟩]
  word_eq := by decide +kernel
  clause_eq := .single ⟨rfl, by decide +kernel⟩
  source_eq := by decide +kernel
  module_eq := rfl
  tail_eq := ⟨.inl rfl, .inl rfl⟩

/-- Not every declaration among statements is found. -/
theorem not_forall_ofTrees_filter : ¬ ∀ (d : Declaration) (source : List Char) (before after : List Tree),
    Tree.parse source = .ok (before ++ (d.trees ++ after)) → Proper before → d.EndsBefore after →
      (ofTrees (before ++ (d.trees ++ after))).filter
        (fun r => r.kind = .static ∧ d.record.span.contains r.span.start) = [d.record] := by
  intro hall
  have hparse : Tree.parse "import from from \"m\"".toList = .ok ([] ++ (fromDeclaration.trees ++ [])) :=
    parse_of_scan (by decide +kernel) (by simp [PairedAll, Tree.Paired, fromDeclaration, Declaration.trees,
      Declaration.tail, opened?, closed?])
  have hends : fromDeclaration.EndsBefore [] := ⟨fun _ => rfl, by rintro - ⟨_, _, h, ⟨_⟩⟩; cases h⟩
  have hfound := hall fromDeclaration _ [] [] hparse .nil hends
  have hnone : ofTrees ([] ++ (fromDeclaration.trees ++ [])) = [] := by decide +kernel
  rw [hnone] at hfound
  cases hfound

end Import

end DeferredLog
