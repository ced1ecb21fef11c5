import DeferredLog.Import.Binding
import DeferredLog.Proofs.CallSite.Shape

/-!
# Where imports stand

An import with a clause starts at a tree at the top of the program and ends with one: its specifier,
its attributes or a semicolon. Imports are listed in the order of the text, so the first one that
leads to the logger is the first of those with a clause.

* `Import.exists_ending`: the tree that an import ends with is no part of a call.
* `Binding.search_eq_some_iff`: the import that a search finds.
* `Import.filter_ofTrees`: the imports that are looked up are those with a clause.
-/

namespace DeferredLog

open DeferredLog.Tree

/-! ## Searching -/

namespace Binding

variable {resolve : String → Option String} {root target : String} {records : List Import}

/-- Whether an import may bind the target and leads to a module that is the target. -/
def LeadsTo (resolve : String → Option String) (root target : String) (record : Import)
    (module : String) : Prop :=
  ∃ specifier, record.candidate? = some specifier ∧
    wanted? root target (resolve specifier) = some module

/-- **A search finds the first import that leads to the target.** -/
theorem search_eq_some_iff {binding : Binding} :
    (search resolve root target records).binding = some binding ↔
      ∃ before record after module, records = before ++ record :: after ∧
        (∀ r ∈ before, ∀ m, ¬ LeadsTo resolve root target r m) ∧
        LeadsTo resolve root target record module ∧
        binding = ⟨record.localNames, record.span, module⟩ := by
  induction records with
  | nil => simp [search]
  | cons record records ih =>
    have skip (hrecord : ∀ m, ¬ LeadsTo resolve root target record m) :
        (search resolve root target records).binding = some binding ↔
          ∃ before r after module, record :: records = before ++ r :: after ∧
            (∀ r ∈ before, ∀ m, ¬ LeadsTo resolve root target r m) ∧
            LeadsTo resolve root target r module ∧ binding = ⟨r.localNames, r.span, module⟩ := by
      rw [ih]
      constructor
      · rintro ⟨before, r, after, module, rfl, hbefore, hr, hb⟩
        refine ⟨record :: before, r, after, module, rfl, fun r hr => ?_, hr, hb⟩
        rcases List.mem_cons.mp hr with rfl | hr
        · exact hrecord
        · exact hbefore r hr
      · rintro ⟨before, r, after, module, he, hbefore, hr, hb⟩
        cases before with
        | nil =>
          obtain ⟨rfl, rfl⟩ := List.cons.inj he
          exact absurd hr (hrecord _)
        | cons first before =>
          obtain ⟨rfl, rfl⟩ := List.cons.inj he
          exact ⟨before, r, after, module, rfl, fun r hr => hbefore r (List.mem_cons_of_mem _ hr),
            hr, hb⟩
    rw [search]
    split
    · rename_i hc
      refine skip fun m hm => ?_
      obtain ⟨specifier, hs, -⟩ := hm
      rw [hc] at hs
      cases hs
    · rename_i specifier hc
      dsimp only
      split
      · rename_i module hm
        constructor
        · rintro h
          exact ⟨[], record, records, module, rfl, by simp, ⟨specifier, hc, hm⟩,
            (Option.some.inj h).symm⟩
        · rintro ⟨before, r, after, module', he, hbefore, hr, rfl⟩
          cases before with
          | nil =>
            obtain ⟨rfl, rfl⟩ := List.cons.inj he
            obtain ⟨specifier', hs, hm'⟩ := hr
            rw [hc] at hs
            cases hs
            rw [hm] at hm'
            cases hm'
            rfl
          | cons first before =>
            obtain ⟨rfl, rfl⟩ := List.cons.inj he
            exact absurd ⟨specifier, hc, hm⟩ (hbefore _ List.mem_cons_self module)
      · rename_i hm
        refine skip fun m hlead => ?_
        obtain ⟨specifier', hs, hm'⟩ := hlead
        rw [hc] at hs
        cases hs
        rw [hm] at hm'
        cases hm'

/-- Only imports that may bind the target matter to a search. -/
theorem binding_filter : (search resolve root target
      (records.filter (·.candidate?.isSome))).binding = (search resolve root target records).binding := by
  induction records with
  | nil => rfl
  | cons record records ih =>
    cases hc : record.candidate? with
    | none => simp [search, hc, ih]
    | some specifier =>
      rw [List.filter_cons, if_pos (by simp [hc])]
      simp only [search, hc]
      split
      · rfl
      · exact ih

/-- A binding whose import has its ends elsewhere. -/
def relocate (move : Nat → Nat) (binding : Binding) : Binding :=
  { binding with span := ⟨move binding.span.start, move binding.span.stop⟩ }

end Binding

/-- An import with its ends elsewhere. -/
def Import.relocate (move : Nat → Nat) (record : Import) : Import :=
  { record with span := ⟨move record.span.start, move record.span.stop⟩ }

/-- Imports lead where they lead wherever they stand. -/
theorem Binding.search_relocate (resolve : String → Option String) (root target : String)
    (move : Nat → Nat) (records : List Import) :
    (search resolve root target (records.map (Import.relocate move))).binding =
      (search resolve root target records).binding.map (relocate move) := by
  induction records with
  | nil => rfl
  | cons record records ih =>
    have hcandidate : (record.relocate move).candidate? = record.candidate? := rfl
    rw [List.map_cons, search, search, hcandidate]
    cases record.candidate? with
    | none => exact ih
    | some specifier =>
      dsimp only
      cases wanted? root target (resolve specifier) with
      | none => exact ih
      | some module => rfl

/-! ## Ends -/

namespace Import

/-- Whether an import can end with a tree: a specifier, attributes or a semicolon. -/
def Ending (tree : Tree) : Prop :=
  (tree.string?).isSome = true ∨ Outline.isGroup .brace tree = true ∨ tree.isPunct ";" = true

/-- No call has a tree that an import can end with. -/
theorem Ending.notMem {tree : Tree} (h : Ending tree) {name : String} {x : List Tree}
    (hc : CallOf name x) : tree ∉ x := by
  have leaf {token : Token} (hk : token.kind = .ident ∨ token.isPunct "." = true) :
      ¬ Ending (.leaf token) := by
    rintro (h | h | h)
    · rcases hk with hk | hk
      · simp [string?, hk] at h
      · simp only [Token.isPunct, Bool.and_eq_true, decide_eq_true_eq] at hk
        simp [string?, hk] at h
    · simp [Outline.isGroup, inside?] at h
    · simp only [Tree.isPunct, Token.isPunct, Bool.and_eq_true, decide_eq_true_eq] at h hk
      rcases hk with hk | hk
      · rw [hk] at h
        cases h.1
      · rw [hk.2] at h
        exact absurd h.2 (by decide)
  have group {a b : Token} {inside : List Tree} : ¬ Ending (.group .paren a b inside) := by
    rintro (h | h | h)
    · simp [string?] at h
    · simp [Outline.isGroup, inside?] at h
    · simp [Tree.isPunct] at h
  intro hm
  cases hc with
  | level hk _ hd hl =>
    simp only [List.mem_cons, List.not_mem_nil, or_false] at hm
    rcases hm with rfl | rfl | rfl | rfl
    · exact leaf (.inl hk) h
    · exact leaf (.inr hd) h
    · exact leaf (.inl hl) h
    · exact group h
  | modifier hk _ hd hl hd' hm' =>
    simp only [List.mem_cons, List.not_mem_nil, or_false] at hm
    rcases hm with rfl | rfl | rfl | rfl | rfl | rfl
    · exact leaf (.inl hk) h
    · exact leaf (.inr hd) h
    · exact leaf (.inl hl) h
    · exact leaf (.inr hd') h
    · exact leaf (.inl hm') h
    · exact group h

/-- What an import read from some trees leaves is their end, and it ends with the tree before that. -/
structure Reaches (trees : List Tree) (stop : Nat) (rest : List Tree) : Prop where
  /-- The trees that it takes, the last of which it ends with. -/
  split : ∃ front last, trees = front ++ last :: rest ∧ Ending last ∧ last.stop = stop

namespace Reaches

variable {trees rest : List Tree} {stop : Nat}

/-- It leaves an end of the trees. -/
theorem suffix (h : Reaches trees stop rest) : rest <:+ trees := by
  obtain ⟨front, last, rfl, -⟩ := h.split
  exact ⟨front ++ [last], by simp⟩

/-- It ends with one of the trees. -/
theorem ending (h : Reaches trees stop rest) : ∃ tree ∈ trees, Ending tree ∧ tree.stop = stop := by
  obtain ⟨front, last, rfl, hlast⟩ := h.split
  exact ⟨last, by simp, hlast⟩

theorem behind (h : Reaches trees stop rest) {more : List Tree} (hs : trees <:+ more) :
    Reaches more stop rest := by
  obtain ⟨before, rfl⟩ := hs
  obtain ⟨front, last, rfl, hlast⟩ := h.split
  exact ⟨before ++ front, last, by simp, hlast⟩

theorem semicolon {tree : Tree} (hp : tree.isPunct ";" = true) :
    Reaches (tree :: rest) tree.stop rest :=
  ⟨[], tree, rfl, .inr (.inr hp), rfl⟩

end Reaches

/-- The trees behind the attributes of an import that ends at `stop`, and where they end. -/
def pastAttributes (stop : Nat) (trees : List Tree) : List Tree × Nat :=
  match trees with
  | word :: .group .brace _ closing _ :: rest =>
    if word.isIdent "with" || word.isIdent "assert" then (rest, closing.stop) else (trees, stop)
  | _ => (trees, stop)

/-- The trees behind the semicolon of an import that ends at `stop`, and where it ends. -/
def pastSemicolon (stop : Nat) (trees : List Tree) : List Tree × Nat :=
  match trees with
  | tree :: rest => if tree.isPunct ";" then (rest, tree.stop) else (trees, stop)
  | [] => (trees, stop)

theorem clauseTail_eq (stop : Nat) (trees : List Tree) :
    clauseTail stop trees =
      pastSemicolon (pastAttributes stop trees).2 (pastAttributes stop trees).1 := rfl

/-- The attributes and the semicolon of an import end it. -/
theorem reaches_clauseTail {first : Tree} (hf : Ending first) (trees : List Tree) :
    Reaches (first :: trees) (clauseTail first.stop trees).2 (clauseTail first.stop trees).1 := by
  have attributes : Reaches (first :: trees) (pastAttributes first.stop trees).2
      (pastAttributes first.stop trees).1 := by
    have here : Reaches (first :: trees) first.stop trees :=
      ⟨[], first, rfl, hf, rfl⟩
    unfold pastAttributes
    split
    · rename_i word a closing inside more
      split
      · refine ⟨[first, word], .group .brace a closing inside, rfl, .inr (.inl ?_), rfl⟩
        simp [Outline.isGroup, inside?]
      · exact here
    · exact here
  rw [clauseTail_eq]
  generalize pastAttributes first.stop trees = reached at attributes
  unfold pastSemicolon
  split
  · rename_i tree rest hr
    rw [hr] at attributes
    split
    · rename_i hp
      exact (Reaches.semicolon hp).behind attributes.suffix
    · exact hr ▸ attributes
  · exact attributes

/-- A string literal is a leaf. -/
theorem string?_eq_some {tree : Tree} {token : Token} (h : tree.string? = some token) :
    tree = .leaf token ∧ token.kind = .string := by
  cases tree with
  | group => cases h
  | leaf t =>
    simp only [string?] at h
    split at h
    · cases h
      exact ⟨rfl, ‹_›⟩
    · cases h

theorem named?_reaches {kind : ImportKind} {start : Nat} {names : List ImportName}
    {trees rest : List Tree} {record : Import}
    (h : named? kind start names trees = some (record, rest)) :
    Reaches trees record.span.stop rest ∧ record.kind = kind ∧ record.names = names ∧
      record.span.start = start := by
  unfold named? at h
  simp only [Option.bind_eq_bind, Option.bind_eq_some_iff] at h
  obtain ⟨tree, ht, token, hs, h⟩ := h
  obtain ⟨more, rfl⟩ := List.head?_eq_some_iff.mp ht
  cases h
  obtain ⟨rfl, -⟩ := string?_eq_some hs
  exact ⟨reaches_clauseTail (.inl (by rw [hs]; rfl)) more, rfl, rfl, rfl⟩

theorem clause?_brace (a b : Token) (inside rest : List Tree) :
    clause? (.group .brace a b inside :: rest) =
      (clause? rest).map fun r => (namedClause inside ++ r.1, r.2) := by
  rw [clause?.eq_def]
  simp [isIdent, ident?, inside?]

theorem clause?_group {d : Delimiter} (h : d ≠ .brace) (a b : Token) (inside rest : List Tree) :
    clause? (.group d a b inside :: rest) = none := by
  rw [clause?.eq_def]
  simp [isIdent, ident?, inside?, h, Tree.isPunct]

theorem clause?_suffix {trees rest : List Tree} {names : List ImportName}
    (h : clause? trees = some (names, rest)) : rest <:+ trees := by
  fun_induction clause? trees generalizing names rest with
  | case1 => cases h
  | case2 =>
    cases h
    exact List.suffix_cons ..
  | case3 | case4 =>
    rename_i ih
    obtain ⟨⟨_, more⟩, hr, he⟩ := Option.map_eq_some_iff.mp h
    cases he
    exact (ih hr).trans (List.suffix_cons ..)
  | case5 =>
    rename_i ih
    obtain ⟨⟨_, more⟩, hr, he⟩ := Option.map_eq_some_iff.mp h
    cases he
    exact (ih hr).trans
      ((List.suffix_cons ..).trans ((List.suffix_cons ..).trans (List.suffix_cons ..)))
  | case6 | case7 | case9 => cases h
  | case8 =>
    rename_i ih
    exact (ih h).trans (List.suffix_cons ..)

theorem behindWord?_suffix {word : String} {trees rest : List Tree}
    (h : behindWord? word trees = some rest) : rest <:+ trees := by
  cases trees with
  | nil => cases h
  | cons tree trees =>
    simp only [behindWord?] at h
    split at h
    · cases h
      exact List.suffix_cons ..
    · cases h

/-- The trees behind what a re-export names: a star, with a name or without, or names in braces. -/
def exported? (trees : List Tree) : Option (List Tree) :=
  match trees with
  | [] => none
  | head :: tail =>
    if head.isPunct "*" then
      match tail with
      | word :: rest => some (if word.isIdent "as" then rest.tail else word :: rest)
      | [] => some []
    else (head.inside? .brace).map fun _ => tail

theorem reExport?_eq (start : Nat) (trees : List Tree) :
    reExport? start trees = (exported? trees).bind fun rest =>
      (behindWord? "from" rest).bind (named? .reExport start []) := by
  cases trees with
  | nil => rfl
  | cons head tail =>
    by_cases hstar : head.isPunct "*" = true
    · cases tail <;> simp [reExport?, exported?, hstar]
    · cases hi : head.inside? .brace <;> simp [reExport?, exported?, hstar, hi]

theorem exported?_suffix {trees rest : List Tree} (h : exported? trees = some rest) :
    rest <:+ trees := by
  cases trees with
  | nil => cases h
  | cons head tail =>
    simp only [exported?] at h
    split at h
    · split at h
      · cases h
        split
        · exact (List.tail_suffix _).trans ((List.suffix_cons ..).trans (List.suffix_cons ..))
        · exact List.suffix_cons ..
      · cases h
        exact List.suffix_cons ..
    · obtain ⟨_, -, rfl⟩ := Option.map_eq_some_iff.mp h
      exact List.suffix_cons ..

/-- An import starts at its first tree and ends at one behind it. -/
theorem at?_reaches {tree : Tree} {trees rest : List Tree} {record : Import}
    (h : at? tree trees = some (record, rest)) :
    Reaches trees record.span.stop rest ∧ record.span.start = tree.start := by
  unfold at? at h
  split at h
  · unfold static? at h
    split at h
    · rename_i found hn
      cases h
      obtain ⟨hr, -, -, hs⟩ := named?_reaches hn
      exact ⟨hr, hs⟩
    · obtain ⟨⟨names, more⟩, hc, hn⟩ := Option.bind_eq_some_iff.mp h
      obtain ⟨hr, -, -, hs⟩ := named?_reaches hn
      exact ⟨hr.behind (clause?_suffix hc), hs⟩
  · split at h
    · rw [reExport?_eq] at h
      obtain ⟨more, hmore, h⟩ := Option.bind_eq_some_iff.mp h
      obtain ⟨from', hf, hn⟩ := Option.bind_eq_some_iff.mp h
      obtain ⟨hr, -, -, hs⟩ := named?_reaches hn
      exact ⟨hr.behind ((behindWord?_suffix hf).trans (exported?_suffix hmore)), hs⟩
    · cases h

theorem not_dynamic_at? {tree : Tree} {trees rest : List Tree} {record : Import}
    (h : at? tree trees = some (record, rest)) : record.kind ≠ .dynamic := by
  unfold at? at h
  split at h
  · unfold static? at h
    split at h
    · rename_i found hn
      cases h
      rw [(named?_reaches hn).2.1]
      exact nofun
    · obtain ⟨_, -, hn⟩ := Option.bind_eq_some_iff.mp h
      rw [(named?_reaches hn).2.1]
      exact nofun
  · split at h
    · rw [reExport?_eq] at h
      obtain ⟨_, -, h⟩ := Option.bind_eq_some_iff.mp h
      obtain ⟨_, -, hn⟩ := Option.bind_eq_some_iff.mp h
      rw [(named?_reaches hn).2.1]
      exact nofun
    · cases h

/-! ## Clauses -/

theorem clauses_eq_drop (n : Nat) (trees : List Tree) : clauses n trees = clauses 0 (trees.drop n) := by
  induction trees generalizing n with
  | nil => cases n <;> rfl
  | cons tree trees ih =>
    cases n with
    | zero => rfl
    | succ n => exact ih n

/-- Behind an import the next one is looked for. -/
theorem clauses_of_at? {tree : Tree} {trees rest : List Tree} {record : Import}
    (h : at? tree trees = some (record, rest)) :
    clauses 0 (tree :: trees) = record :: clauses 0 rest := by
  obtain ⟨front, rfl⟩ := (at?_reaches h).1.suffix
  rw [clauses, h]
  dsimp only
  rw [clauses_eq_drop, List.length_append, Nat.add_sub_cancel, List.drop_left]

theorem clauses_of_at?_none {tree : Tree} {trees : List Tree} (h : at? tree trees = none) :
    clauses 0 (tree :: trees) = clauses 0 trees := by
  rw [clauses, h]

/-- Induction over the imports of some trees. -/
theorem clauses_induction {motive : List Tree → Prop} (nil : motive [])
    (found : ∀ tree trees record rest, at? tree trees = some (record, rest) → motive rest →
      motive (tree :: trees))
    (none : ∀ tree trees, at? tree trees = none → motive trees → motive (tree :: trees))
    (trees : List Tree) : motive trees := by
  induction hn : trees.length using Nat.strongRecOn generalizing trees with
  | _ n ih =>
  subst hn
  cases trees with
  | nil => exact nil
  | cons tree trees =>
    cases h : at? tree trees with
    | none => exact none tree trees h (ih _ (by simp) trees rfl)
    | some found' =>
      obtain ⟨record, rest⟩ := found'
      have hle := (at?_reaches h).1.suffix.length_le
      exact found tree trees record rest h (ih _ (by simp; omega) rest rfl)

/-- An import with a clause starts and ends at trees of the program's top. -/
theorem mem_clauses {trees : List Tree} {record : Import} (h : record ∈ clauses 0 trees) :
    (∃ tree ∈ trees, tree.start = record.span.start) ∧
      ∃ tree ∈ trees, Ending tree ∧ tree.stop = record.span.stop := by
  induction trees using clauses_induction with
  | nil => cases h
  | found tree trees first rest hat ih =>
    obtain ⟨hr, hs⟩ := at?_reaches hat
    rw [clauses_of_at? hat] at h
    have hsub : ∀ t ∈ rest, t ∈ tree :: trees := fun t ht => List.mem_cons_of_mem _ (hr.suffix.subset ht)
    rcases List.mem_cons.mp h with rfl | h
    · exact ⟨⟨tree, List.mem_cons_self, hs.symm⟩,
        hr.ending.imp fun _ ht => ⟨List.mem_cons_of_mem _ ht.1, ht.2⟩⟩
    · obtain ⟨⟨t, ht, hts⟩, u, hu, huE⟩ := ih h
      exact ⟨⟨t, hsub t ht, hts⟩, u, hsub u hu, huE⟩
  | none tree trees hat ih =>
    rw [clauses_of_at?_none hat] at h
    obtain ⟨⟨t, ht, hts⟩, u, hu, huE⟩ := ih h
    exact ⟨⟨t, List.mem_cons_of_mem _ ht, hts⟩, u, List.mem_cons_of_mem _ hu, huE⟩

/-- An import with a clause is no call. -/
theorem not_dynamic_of_mem_clauses {trees : List Tree} {record : Import} (h : record ∈ clauses 0 trees) :
    record.kind ≠ .dynamic := by
  induction trees using clauses_induction with
  | nil => cases h
  | found tree trees first rest hat ih =>
    rw [clauses_of_at? hat] at h
    rcases List.mem_cons.mp h with rfl | h
    · exact not_dynamic_at? hat
    · exact ih h
  | none tree trees hat ih =>
    rw [clauses_of_at?_none hat] at h
    exact ih h

/-- Imports with a clause are listed in the order of the text. -/
theorem sorted_clauses {trees : List Tree} (h : trees.Pairwise fun a b => a.start ≤ b.start) :
    (clauses 0 trees).Pairwise fun a b => a.span.start ≤ b.span.start := by
  induction trees using clauses_induction with
  | nil => exact .nil
  | found tree trees record rest hat ih =>
    obtain ⟨hr, hs⟩ := at?_reaches hat
    rw [clauses_of_at? hat]
    have hpair := List.pairwise_cons.mp h
    refine .cons (fun r hr' => ?_) (ih (hpair.2.sublist hr.suffix.sublist))
    obtain ⟨⟨t, ht, hts⟩, -⟩ := mem_clauses hr'
    rw [hs, ← hts]
    exact hpair.1 t (hr.suffix.subset ht)
  | none tree trees hat ih =>
    rw [clauses_of_at?_none hat]
    exact ih (List.pairwise_cons.mp h).2

/-! ## All imports -/

mutual

theorem dynamic_of_mem_callsAt {afterDot : Bool} {next : Option Tree} (tree : Tree)
    {record : Import} (h : record ∈ callsAt afterDot next tree) :
    record.kind = .dynamic ∧ record.names = [] :=
  match tree with
  | .group _ _ _ trees => dynamic_of_mem_calls trees h
  | .leaf token => by
    unfold callsAt at h
    split at h
    · split at h
      · rw [List.mem_singleton.mp h]
        exact ⟨rfl, rfl⟩
      · cases h
    · cases h

/-- A call of `import` introduces no names. -/
theorem dynamic_of_mem_calls {afterDot : Bool} (trees : List Tree) {record : Import}
    (h : record ∈ calls afterDot trees) : record.kind = .dynamic ∧ record.names = [] :=
  match trees with
  | [] => by cases h
  | tree :: trees => by
    rcases List.mem_append.mp h with h | h
    · exact dynamic_of_mem_callsAt tree h
    · exact dynamic_of_mem_calls trees h

end

/-- **The imports that may bind the logger are those with a clause**, in the order of the text. -/
theorem filter_ofTrees {trees : List Tree} (h : trees.Pairwise fun a b => a.start ≤ b.start) :
    (ofTrees trees).filter (·.candidate?.isSome) =
      (clauses 0 trees).filter (·.candidate?.isSome) := by
  have hcalls : (calls false trees).filter (·.candidate?.isSome) = [] := by
    refine List.filter_eq_nil_iff.mpr fun record hr => ?_
    simp [candidate?, isStatic, (dynamic_of_mem_calls trees hr).1]
  have hsub : (clauses 0 trees).Sublist (ofTrees trees) := by
    refine List.sublist_mergeSort ?_ ?_ ?_ (List.sublist_append_left _ _)
    · intro a b c hab hbc
      simp only [decide_eq_true_eq] at *
      omega
    · intro a b
      simp only [Bool.or_eq_true, decide_eq_true_eq]
      omega
    · exact (sorted_clauses h).imp fun hab => by simpa using hab
  have hlength : ((ofTrees trees).filter (·.candidate?.isSome)).length =
      ((clauses 0 trees).filter (·.candidate?.isSome)).length := by
    have hperm := (List.mergeSort_perm (clauses 0 trees ++ calls false trees)
      fun a b => a.span.start ≤ b.span.start).filter (·.candidate?.isSome)
    rw [List.filter_append, hcalls, List.append_nil] at hperm
    exact hperm.length_eq
  exact ((hsub.filter _).eq_of_length hlength.symm).symm

end Import

end DeferredLog
