import DeferredLog.Proofs.Outline.Nesting
import DeferredLog.Proofs.Program.Numbering

/-!
# Where statements are recorded

What is read for a job is made of what is read for its parts: its tokens, its statements, and the scopes
that it opens (`Rule.covers`, `Rule.sites`, `Rule.openings`). So wherever the walk over a program comes to a
job, the job splits the program: the tokens, the statements and the scopes before it, those of the job
itself, and those behind it.

* `Reads.startsIn`: the statements of a job start among the tokens that are read for it.
* `Splits`: how a job splits a program.
* `Visits.splits`: every job that is visited does.
-/

namespace DeferredLog

open DeferredLog.Tree

namespace Outline

open Item

namespace Part

/-- The tokens of some parts, with those between them. -/
def tokens : List Part → List Token
  | [] => []
  | p :: parts => p.gap ++ (p.read ++ tokens parts)

/-- The number of scopes that some parts open. -/
def opened : List Part → Nat
  | [] => 0
  | p :: parts => p.opens + (scopesAll p.items + opened parts)

/-- The statements of some parts of a job that opens the scope `base`, where the next scope has the number
`n`. -/
def sites (base n : Nat) : List Part → List Site
  | [] => []
  | p :: parts => (sitesAll (n + p.opens) p.items).map (·.within (if p.inside then [base] else [])) ++
      sites base (n + p.opens + scopesAll p.items) parts

end Part

variable {job : Job} {parts : List Part} {items : List Item} {rest : List Tree}

/-- A job opens the scopes that its parts open. -/
theorem Rule.opened (h : Rule job parts items rest) : scopesAll items = Part.opened parts := by
  cases h <;> simp [Part.opened]
  case declaration hoisted _ _ => cases hoisted <;> simp
  case function declares _ _ _ _ _ _ _ _ _ _ _ | classBody declares _ _ _ _ _ _ _ _ _ _ _ _ _ =>
    cases declares <;> simp <;> omega
  all_goals omega

/-- The number of scopes that a job opens by itself, all of them before its first part. -/
def Part.first (parts : List Part) : Nat :=
  (parts.head?.map Part.opens).getD 0

/-- The scopes that a job opens are its own and those of its parts. -/
theorem Rule.openings (h : Rule job parts items rest) :
    (openingsAll items).drop (Part.first parts) = parts.flatMap (openingsAll ·.items) := by
  cases h
  case declaration hoisted _ _ => cases hoisted <;> simp [Part.first]
  case function declares _ _ _ _ _ _ _ _ _ _ _ | classBody declares _ _ _ _ _ _ _ _ _ _ _ _ _ =>
    cases declares <;> simp [Part.first]
  all_goals simp [Part.first]

theorem Rule.opens_tail (h : Rule job parts items rest) : ∀ p ∈ parts.tail, p.opens = 0 := by
  cases h <;> simp

/-- What stands in a scope that a job opens stands behind the opening. -/
theorem Rule.opens (h : Rule job parts items rest) :
    ∀ p ∈ parts, p.inside = true → 0 < Part.first parts := by
  cases h <;> simp [Part.first]

/-- The scopes that are open before a part are those of the job and of the parts before it. -/
theorem Rule.opened_before {ps qs : List Part} {p : Part} (h : Rule job (ps ++ p :: qs) items rest) :
    Part.opened ps + p.opens =
      Part.first (ps ++ p :: qs) + (ps.flatMap (openingsAll ·.items)).length := by
  have sum : ∀ {more : List Part}, (∀ q ∈ more, q.opens = 0) →
      Part.opened more = (more.flatMap (openingsAll ·.items)).length := by
    intro more hmore
    induction more with
    | nil => rfl
    | cons q more ih =>
      rw [Part.opened, ih fun r hr => hmore r (List.mem_cons_of_mem _ hr),
        hmore q List.mem_cons_self, List.flatMap_cons, List.length_append, length_openingsAll]
      omega
  have htail := h.opens_tail
  cases ps with
  | nil => simp [Part.opened, Part.first]
  | cons q ps =>
    rw [List.cons_append, List.tail_cons] at htail
    rw [Part.opened, sum fun r hr => htail r (List.mem_append_left _ hr), htail p (by simp),
      List.flatMap_cons, List.length_append, length_openingsAll]
    simp only [Part.first, List.cons_append, List.head?_cons, Option.map_some, Option.getD_some]
    omega

/-- The statements of a job are its own and those of its parts. -/
theorem Rule.sites (h : Rule job parts items rest) (n : Nat) :
    ∃ own : List (List Tree), (∀ x ∈ own, x ≠ [] ∧ Part.tokens parts = flattenAll x) ∧
      sitesAll n items = own.map (⟨·, []⟩) ++ Part.sites n n parts := by
  cases h
  case expressionStatement tree more inner _ =>
    exact ⟨[tree :: (takeExpression (some tree) more).1], by simp [Part.tokens, Job.trees],
      by simp [Part.sites]⟩
  all_goals refine ⟨[], List.forall_mem_nil _, ?_⟩
  case declaration hoisted _ _ => cases hoisted <;> simp [Part.sites]
  case function declares _ _ _ _ _ _ _ _ _ _ _ | classBody declares _ _ _ _ _ _ _ _ _ _ _ _ _ =>
    cases declares <;> simp [Part.sites]
  all_goals simp [Part.sites, Nat.add_assoc]

theorem exists_value_tokens (before : Option Tree) (trees : List Tree) :
    ∃ tail, flattenAll trees = flattenAll (takeExpression before trees).1 ++
      (tail ++ flattenAll (skipSemicolon (takeExpression before trees).2)) := by
  obtain ⟨y, hy⟩ := suffix_skipSemicolon (takeExpression before trees).2
  refine ⟨flattenAll y, ?_⟩
  rw [← flattenAll_append, hy, ← flattenAll_append, takeExpression_append]

/-- The tokens of the parts of a job are those at its front. -/
theorem Rule.covers (h : Rule job parts items rest) (hp : AllRead parts) :
    ∃ tail, flattenAll job.trees = Part.tokens parts ++ (tail ++ flattenAll rest) := by
  have hsuffix := fun p hmem => (hp p hmem).suffix
  cases h <;> simp only [List.forall_mem_cons, List.not_mem_nil, false_imp_iff, implies_true, and_true,
    Job.trees, Part.tokens, Part.read_nil, List.nil_append, List.append_nil] at hsuffix ⊢
  case bodyNil | casesNil | expressionNil | cleanupNone => exact ⟨[], rfl⟩
  case empty tree _ => exact ⟨tree.flatten, rfl⟩
  case bodyCons | casesStatement =>
    obtain ⟨⟨x, hx⟩, -⟩ := hsuffix
    rw [Part.read_eq hx, ← hx]
    exact ⟨[], by simp [flattenAll]⟩
  case block | handler | exportStatement =>
    obtain ⟨x, hx⟩ := hsuffix
    rw [Part.read_eq hx, ← hx]
    exact ⟨[], by simp⟩
  case ifElse =>
    obtain ⟨-, ⟨x, rfl⟩, y, rfl⟩ := hsuffix
    rw [Part.read_eq rfl, Part.read_eq rfl]
    exact ⟨[], by simp [flattenAll, Tree.flatten]⟩
  case ifOnly | whileLoop | switchCases | forLoop =>
    obtain ⟨-, x, rfl⟩ := hsuffix
    rw [Part.read_eq rfl]
    exact ⟨[], by simp [flattenAll, Tree.flatten]⟩
  case doWhile word a b head last _ _ _ =>
    obtain ⟨⟨x, rfl⟩, -⟩ := hsuffix
    obtain ⟨y, hy⟩ := suffix_skipSemicolon last
    rw [Part.read_eq rfl]
    refine ⟨b :: flattenAll y, ?_⟩
    conv_lhs => rw [← hy]
    simp [flattenAll, Tree.flatten]
  case tryCatch =>
    obtain ⟨⟨x, rfl⟩, ⟨y, rfl⟩, z, rfl⟩ := hsuffix
    rw [Part.read_eq rfl, Part.read_eq rfl, Part.read_eq rfl]
    exact ⟨[], by simp [flattenAll]⟩
  case tryOnly =>
    obtain ⟨⟨x, rfl⟩, y, rfl⟩ := hsuffix
    rw [Part.read_eq rfl, Part.read_eq rfl]
    exact ⟨[], by simp [flattenAll]⟩
  case functionDeclaration | classDeclaration | exportClause | cleanup | handlerNames | asyncFunction | labelled
      | exportFunction | exportClass | exportAsync =>
    obtain ⟨x, rfl⟩ := hsuffix
    rw [Part.read_eq rfl]
    exact ⟨[], by simp [flattenAll]⟩
  case declaration | leave | exportValue =>
    obtain ⟨tail, htail⟩ := exists_value_tokens none _
    exact ⟨tail, by rw [flattenAll, htail, List.append_assoc]⟩
  case expressionStatement tree more _ _ =>
    obtain ⟨tail, htail⟩ := exists_value_tokens (some tree) more
    exact ⟨tail, by rw [flattenAll, htail, flattenAll, List.append_assoc]⟩
  case leaveBare tree more _ _ | debugger tree more _ =>
    obtain ⟨y, hy⟩ := suffix_skipSemicolon more
    exact ⟨flattenAll (tree :: y), by rw [← flattenAll_append, List.cons_append, hy]⟩
  case jump tree more _ =>
    obtain ⟨y, hy⟩ := suffix_label (startsWith (fun t => !t.newlineBefore && isFreeName t) more) more
    exact ⟨flattenAll (tree :: y), by rw [← flattenAll_append, List.cons_append, hy]⟩
  case importClause tree _ _ _ he =>
    obtain ⟨y, hy⟩ := suffix_clause he
    exact ⟨flattenAll (tree :: y), by rw [← flattenAll_append, List.cons_append, hy]⟩
  case exportNames he =>
    obtain ⟨y, hy⟩ := suffix_clause he
    exact ⟨flattenAll y, by rw [← flattenAll_append, hy]⟩
  case blockHere a b _ _ | switch a b _ _ | arrowBlock a b _ _ _ =>
    exact ⟨[b], by simp [flattenAll, Tree.flatten]⟩
  case casesTest | casesDefault | method | group | plain | staticBlock =>
    exact ⟨[], by simp [flattenAll, Tree.flatten]⟩
  case function c d _ _ _ _ => exact ⟨[d], by simp [flattenAll, Tree.flatten]⟩
  case classBody front lead before trail c d inside _ _ _ hb _ _ =>
    refine ⟨[d], ?_⟩
    have htokens : flattenAll before = flattenAll lead ++ (flattenAll (heritage before) ++ flattenAll trail) := by
      rw [← flattenAll_append, ← flattenAll_append, ← hb]
    simp [flattenAll, Tree.flatten, htokens]
  case functionInside | classInside | arrowInside =>
    obtain ⟨⟨x, rfl⟩, -⟩ := hsuffix
    rw [Part.read_eq rfl]
    exact ⟨[], by simp [flattenAll, Tree.flatten]⟩
  case arrowValue tree more _ _ _ =>
    have hcut : (takeArrowBody (tree :: more)).1 ++ (takeArrowBody (tree :: more)).2 = tree :: more :=
      List.takeWhile_append_dropWhile
    exact ⟨[], by rw [List.nil_append, ← flattenAll_append, hcut]⟩

/-! ## What is read -/

/-- There is only one way to read a job. -/
theorem Reads.unique {items' : List Item} {rest' : List Tree} (h : Reads job items rest)
    (h' : Reads job items' rest') : items = items' ∧ rest = rest' := by
  have same : ∀ {bound} {result : Except Fault (Step bound)}, Gave result items rest →
      Gave result items' rest' → items = items' ∧ rest = rest' := by
    rintro _ _ ⟨step, hs, rfl, rfl⟩ ⟨step', hs', rfl, rfl⟩
    cases hs.symm.trans hs'
    exact ⟨rfl, rfl⟩
  have hg := h.gives
  have hg' := h'.gives
  cases job with
  | body | cases | expression =>
    exact ⟨Except.ok.inj (hg.1.symm.trans hg'.1), hg.2.trans hg'.2.symm⟩
  | block => exact same (hg .statement []) (hg' .statement [])
  | arrow => exact same (hg ⟨.punct, "", 0, false⟩) (hg' ⟨.punct, "", 0, false⟩)
  | _ => exact same (hg []) (hg' [])

/-- An arrow function that gives an expression opens a scope for its parameters and for what is nested in
the expression, and leaves what is behind the next comma or semicolon. -/
theorem Reads.arrow_inv {before : Before} {first : Tree} {more : List Tree}
    (h : Reads (.arrow before (first :: more)) items rest)
    (hbrace : isGroup .brace first = false) : ∃ names inner, before.arrowNames = some names ∧
      Reads (.expression .nothing (takeArrowBody (first :: more)).1) inner [] ∧
      items = [.scope .function [] (names.map .bind ++ inner)] ∧
      rest = (takeArrowBody (first :: more)).2 := by
  cases h with
  | arrowBlock => cases hbrace
  | arrowValue hnames _ hinner => exact ⟨_, _, hnames, hinner, rfl, rfl⟩

/-- The tokens that are read for a job which leaves some trees. -/
def Job.read (job : Job) (rest : List Tree) : List Token :=
  flattenAll (job.trees.take (job.trees.length - rest.length))

theorem Job.read_append (h : rest <:+ job.trees) :
    flattenAll job.trees = job.read rest ++ flattenAll rest := by
  obtain ⟨x, hx⟩ := h
  rw [read, ← hx, List.length_append, Nat.add_sub_cancel, List.take_left' rfl, flattenAll_append]

/-- What is read for a job begins with what is read for its parts. -/
theorem Rule.read (h : Rule job parts items rest) (hp : AllRead parts) :
    ∃ tail, job.read rest = Part.tokens parts ++ tail := by
  obtain ⟨tail, htail⟩ := h.covers hp
  refine ⟨tail, List.append_cancel_right ((Job.read_append (h.suffix fun p hm => (hp p hm).suffix)).symm.trans ?_)⟩
  rw [htail, List.append_assoc]

/-- Whether some trees start at one of some tokens. -/
def StartsIn (tokens : List Token) (x : List Tree) : Prop :=
  ∃ t ∈ tokens, t.start = startOf x

theorem StartsIn.mono {a b : List Token} {x : List Tree} (h : StartsIn a x) (hab : a ⊆ b) :
    StartsIn b x :=
  h.imp fun _ ht => ⟨hab ht.1, ht.2⟩

theorem startsIn_flattenAll {x : List Tree} (hx : x ≠ []) : StartsIn (flattenAll x) x := by
  obtain ⟨first, hfirst, hstart⟩ := head?_flattenAll hx
  exact ⟨first, List.mem_of_head? hfirst, hstart⟩

section Order

variable {a b : List Token} {x y : List Tree}

/-- What starts among tokens before some trees starts before them. -/
theorem StartsIn.lt_startOf (h : StartsIn a y) (ho : Token.Ordered (a ++ flattenAll x)) (hx : x ≠ []) :
    startOf y < startOf x := by
  obtain ⟨t, ht, hstart⟩ := h
  obtain ⟨first, hfirst, hfs⟩ := head?_flattenAll hx
  have := ho.between ht (List.mem_of_head? hfirst)
  have := ho.left.nonempty t ht
  omega

/-- What starts among tokens behind some trees starts behind them. -/
theorem StartsIn.stopOf_le (h : StartsIn b y) (ho : Token.Ordered (flattenAll x ++ b)) (hx : x ≠ []) :
    stopOf x ≤ startOf y := by
  obtain ⟨t, ht, hstart⟩ := h
  obtain ⟨last, hlast, hls⟩ := getLast?_flattenAll hx
  have := ho.between (List.mem_of_getLast? hlast) ht
  omega

/-- What starts among the tokens of some trees starts between their ends. -/
theorem StartsIn.between (h : StartsIn (flattenAll x) y) (ho : Token.Ordered (flattenAll x)) :
    startOf x ≤ startOf y ∧ startOf y < stopOf x := by
  obtain ⟨t, ht, hstart⟩ := h
  have hx : x ≠ [] := by
    rintro rfl
    cases ht
  obtain ⟨first, hfirst, hfs⟩ := head?_flattenAll hx
  obtain ⟨last, hlast, hls⟩ := getLast?_flattenAll hx
  have := ho.start_le_of_head? hfirst ht
  have := ho.stop_le_of_getLast? hlast ht
  have := ho.nonempty t ht
  omega

end Order

/-- The statements of parts start among their tokens if those of each of them do. -/
theorem Part.startsIn {base n : Nat} {site : Site} (hp : ∀ p ∈ parts, ∀ n, ∀ site ∈ sitesAll n p.items,
    StartsIn p.read site.trees) (h : site ∈ Part.sites base n parts) :
    StartsIn (Part.tokens parts) site.trees := by
  induction parts generalizing n with
  | nil => cases h
  | cons p parts ih =>
    rcases List.mem_append.mp h with h | h
    · obtain ⟨site, hs, rfl⟩ := List.mem_map.mp h
      exact (hp p List.mem_cons_self _ site hs).mono fun t ht => by simp [Part.tokens, ht]
    · exact (ih (fun p hm => hp p (List.mem_cons_of_mem _ hm)) h).mono fun t ht => by
        simp [Part.tokens, ht]

/-- **Statements that are read start among the tokens that are read.** -/
theorem Reads.startsIn (h : Reads job items rest) (n : Nat) :
    ∀ site ∈ sitesAll n items, StartsIn (job.read rest) site.trees := by
  revert n
  refine Reads.induct (motive := fun job items rest => ∀ n, ∀ site ∈ sitesAll n items,
    StartsIn (job.read rest) site.trees) ?_ h
  intro job parts items rest hrule hread ih n site hsite
  obtain ⟨tail, htail⟩ := hrule.read hread
  obtain ⟨own, hown, hsites⟩ := hrule.sites n
  rw [hsites] at hsite
  rw [htail]
  rcases List.mem_append.mp hsite with hs | hs
  · obtain ⟨x, hx, rfl⟩ := List.mem_map.mp hs
    rw [(hown x hx).2]
    exact (startsIn_flattenAll (hown x hx).1).mono (List.subset_append_left _ _)
  · exact (Part.startsIn ih hs).mono (List.subset_append_left _ _)

/-! ## Places -/

namespace Part

variable {base n : Nat} {ps qs : List Part}

theorem tokens_append (ps qs : List Part) : tokens (ps ++ qs) = tokens ps ++ tokens qs := by
  induction ps with
  | nil => rfl
  | cons p ps ih => simp [tokens, ih]

theorem opened_append (ps qs : List Part) : opened (ps ++ qs) = opened ps + opened qs := by
  induction ps with
  | nil => simp [opened]
  | cons p ps ih =>
    simp only [List.cons_append, opened, ih]
    omega

theorem sites_append (base n : Nat) (ps qs : List Part) :
    sites base n (ps ++ qs) = sites base n ps ++ sites base (n + opened ps) qs := by
  induction ps generalizing n with
  | nil => rfl
  | cons p ps ih => simp [sites, opened, ih, Nat.add_assoc]

/-- The scopes around the statements of parts open in them, or around them. -/
theorem mem_around {site : Site} {k : Nat} (h : site ∈ sites base n ps) (hk : k ∈ site.around) :
    (k = base ∧ ∃ p ∈ ps, p.inside = true) ∨ n ≤ k ∧ k < n + opened ps := by
  induction ps generalizing n with
  | nil => cases h
  | cons p ps ih =>
    rw [opened]
    rcases List.mem_append.mp h with h | h
    · obtain ⟨site, hs, rfl⟩ := List.mem_map.mp h
      rcases List.mem_append.mp hk with hk | hk
      · have := Item.mem_around p.items hs hk
        exact .inr (by omega)
      · by_cases hi : p.inside = true
        · rw [if_pos hi] at hk
          exact .inl ⟨List.mem_singleton.mp hk, p, List.mem_cons_self, hi⟩
        · rw [if_neg hi] at hk
          cases hk
    · rcases ih h with ⟨hbase, q, hq, hi⟩ | hk
      · exact .inl ⟨hbase, q, List.mem_cons_of_mem _ hq, hi⟩
      · exact .inr (by omega)

end Part

/-- A place is that of a part, behind the parts before it. -/
theorem exists_split {front : List Token} {n : Nat} {t : Spot} (h : t ∈ spots front n parts) :
    ∃ ps p qs, parts = ps ++ p :: qs ∧
      t = ⟨front ++ (Part.tokens ps ++ p.gap), n + Part.opened ps + p.opens, p.job⟩ := by
  induction parts generalizing front n with
  | nil => cases h
  | cons p parts ih =>
    rcases List.mem_cons.mp h with rfl | h
    · exact ⟨[], p, parts, rfl, rfl⟩
    · obtain ⟨ps, q, qs, rfl, rfl⟩ := ih h
      refine ⟨p :: ps, q, qs, rfl, ?_⟩
      simp [Part.tokens, Part.opened, Nat.add_assoc]

/-- Whether what is read is the body of an arrow function. -/
def Job.isArrow : Job → Bool
  | .arrow .. => true
  | _ => false

/-- The arrow stands before its body. -/
theorem Rule.arrow (h : Rule job parts items rest) : ∀ p ∈ parts, p.job.isArrow = true → p.gap ≠ [] := by
  cases h <;> simp [Job.isArrow]

/-- What the walk has read, is going to read for a job, and reads behind it: the tokens, and the statements
with the scopes around them. -/
structure Splits (tokens : List Token) (whole : List Item) (t : Spot) (items : List Item) (rest : List Tree)
    (before after : List Site) (around : List Nat) (behind : List Token) : Prop where
  /-- The tokens before the job, those that are read for it, and those behind. -/
  tokens_eq : tokens = t.front ++ (t.job.read rest ++ behind)
  /-- The statements before the job, those that are read for it, and those behind. -/
  sites_eq : sitesAll 1 whole = before ++ ((sitesAll t.scopes items).map (·.within around) ++ after)
  /-- As many scopes have opened as the place says. -/
  openings_eq : ∃ front back, openingsAll whole = front ++ (openingsAll items ++ back) ∧
    front.length + 1 = t.scopes
  /-- The scopes around the job are open. -/
  around_lt : ∀ k ∈ around, k < t.scopes
  /-- The statements before it stand in such scopes. -/
  before_lt : ∀ site ∈ before, ∀ k ∈ site.around, k < t.scopes
  /-- They start at its first token or before. -/
  before_starts : ∀ site ∈ before, StartsIn (tokens.take (t.front.length + 1)) site.trees
  /-- Before the body of an arrow function they start before it. -/
  arrow_starts : t.job.isArrow = true → ∀ site ∈ before, StartsIn t.front site.trees
  /-- The statements behind it do not stand in scopes that it opens. -/
  after_around : ∀ site ∈ after, ∀ k ∈ site.around, k < t.scopes ∨ t.scopes + scopesAll items ≤ k
  /-- They start behind it. -/
  after_starts : ∀ site ∈ after, StartsIn behind site.trees

namespace Splits

theorem top {trees : List Tree} (h : Reads (.body trees) items rest) :
    Splits (flattenAll trees) items (.top trees) items rest [] [] [] [] where
  tokens_eq := by
    obtain rfl : rest = [] := h.gives.2
    simp [Spot.top, Job.read, Job.trees]
  sites_eq := by simp [Spot.top]
  openings_eq := ⟨[], [], by simp, rfl⟩
  around_lt := nofun
  before_lt := nofun
  before_starts := nofun
  arrow_starts := nofun
  after_around := nofun
  after_starts := nofun

theorem take_subset {a b : Nat} (h : a ≤ b) (tokens : List Token) : tokens.take a ⊆ tokens.take b :=
  (List.take_prefix_take_left h).subset

theorem startsIn_take {x : List Tree} (hx : x ≠ []) (a b : List Token) :
    StartsIn ((a ++ (flattenAll x ++ b)).take (a.length + 1)) x := by
  obtain ⟨first, hfirst, hstart⟩ := head?_flattenAll hx
  obtain ⟨more, hmore⟩ := List.head?_eq_some_iff.mp hfirst
  exact ⟨first, by simp [hmore, List.take_append], hstart⟩

/-- The same from a job to its parts. -/
theorem part {tokens behind : List Token} {whole : List Item} {before after : List Site} {t : Spot}
    {around : List Nat} {ps qs : List Part} {p : Part}
    (h : Splits tokens whole t items rest before after around behind)
    (hrule : Rule t.job (ps ++ p :: qs) items rest) (hread : AllRead (ps ++ p :: qs)) :
    ∃ before after around behind, Splits tokens whole
      ⟨t.front ++ (Part.tokens ps ++ p.gap), t.scopes + Part.opened ps + p.opens, p.job⟩
      p.items p.rest before after around behind := by
  obtain ⟨tail, htail⟩ := hrule.read hread
  obtain ⟨own, hown, hsites⟩ := hrule.sites t.scopes
  have hopened := hrule.opened
  rw [Part.opened_append, Part.opened] at hopened
  have hbefore := hrule.opened_before
  -- The scope around a part is open before the part.
  have hpos : ∀ q ∈ ps ++ p :: qs, q.inside = true → 0 < Part.opened ps + p.opens := fun q hq hi => by
    have := hrule.opens q hq hi
    omega
  have htokens : tokens = (t.front ++ (Part.tokens ps ++ p.gap)) ++
      (p.job.read p.rest ++ (Part.tokens qs ++ (tail ++ behind))) := by
    rw [h.tokens_eq, htail, Part.tokens_append, Part.tokens]
    simp [Part.read, Job.read]
  have hfront : tokens.take (t.front ++ (Part.tokens ps ++ p.gap)).length =
      t.front ++ (Part.tokens ps ++ p.gap) := by
    rw [htokens, List.take_left' rfl]
  have hstarts : ∀ site ∈ before ++ (own.map (Site.mk · []) ++ Part.sites t.scopes t.scopes ps).map
      (Site.within · around), StartsIn (tokens.take (t.front.length + 1)) site.trees ∨
        StartsIn (Part.tokens ps) site.trees := by
    intro site hsite
    rcases List.mem_append.mp hsite with hs | hs
    · exact .inl (h.before_starts site hs)
    · obtain ⟨inner, hinner, rfl⟩ := List.mem_map.mp hs
      rcases List.mem_append.mp hinner with hs | hs
      · obtain ⟨x, hx, rfl⟩ := List.mem_map.mp hs
        refine .inl ?_
        rw [h.tokens_eq, htail, (hown x hx).2, List.append_assoc]
        exact startsIn_take (hown x hx).1 _ _
      · have hin := Part.startsIn (fun q hq => (hread q (List.mem_append_left _ hq)).startsIn) hs
        exact .inr hin
  refine ⟨before ++ (own.map (Site.mk · []) ++ Part.sites t.scopes t.scopes ps).map (Site.within · around),
    (Part.sites t.scopes (t.scopes + Part.opened ps + p.opens + scopesAll p.items) qs).map
      (Site.within · around) ++ after, (if p.inside then [t.scopes] else []) ++ around,
    Part.tokens qs ++ (tail ++ behind), htokens, ?_, ?_, ?_, ?_, ?_, ?_, ?_, ?_⟩
  · rw [h.sites_eq, hsites, Part.sites_append, Part.sites]
    simp [Function.comp_def]
  · obtain ⟨front, back, heq, hlength⟩ := h.openings_eq
    have hitems := List.take_append_drop (Part.first (ps ++ p :: qs)) (openingsAll items)
    have hfirst : Part.first (ps ++ p :: qs) ≤ (openingsAll items).length := by
      rw [length_openingsAll]
      omega
    rw [hrule.openings, List.flatMap_append, List.flatMap_cons] at hitems
    refine ⟨front ++ ((openingsAll items).take (Part.first (ps ++ p :: qs)) ++
      ps.flatMap (openingsAll ·.items)), qs.flatMap (openingsAll ·.items) ++ back, ?_, ?_⟩
    · conv_lhs => rw [heq, ← hitems]
      simp only [List.append_assoc]
    · show _ = t.scopes + Part.opened ps + p.opens
      rw [List.length_append, List.length_append, List.length_take, Nat.min_eq_left hfirst]
      omega
  · intro k hk
    show k < t.scopes + Part.opened ps + p.opens
    rcases List.mem_append.mp hk with hk | hk
    · by_cases hi : p.inside = true
      · rw [if_pos hi] at hk
        obtain rfl := List.mem_singleton.mp hk
        have := hpos p (by simp) hi
        omega
      · rw [if_neg hi] at hk
        cases hk
    · have := h.around_lt k hk
      omega
  · intro site hsite k hk
    show k < t.scopes + Part.opened ps + p.opens
    rcases List.mem_append.mp hsite with hs | hs
    · have := h.before_lt site hs k hk
      omega
    · obtain ⟨inner, hinner, rfl⟩ := List.mem_map.mp hs
      rcases List.mem_append.mp hk with hk | hk
      · rcases List.mem_append.mp hinner with hs | hs
        · obtain ⟨x, -, rfl⟩ := List.mem_map.mp hs
          cases hk
        · rcases Part.mem_around hs hk with ⟨rfl, q, hq, hi⟩ | hk
          · have := hpos q (List.mem_append_left _ hq) hi
            omega
          · omega
      · have := h.around_lt k hk
        omega
  · intro site hsite
    rcases hstarts site hsite with hs | hs
    · exact hs.mono (take_subset (by simp) tokens)
    · refine hs.mono fun token ht => take_subset (Nat.le_succ _) tokens ?_
      rw [hfront]
      simp [ht]
  · intro harrow site hsite
    have hgap : p.gap ≠ [] := hrule.arrow p (by simp) harrow
    have hlength := List.length_pos_iff.mpr hgap
    rcases hstarts site hsite with hs | hs
    · refine hs.mono ?_
      rw [← hfront]
      exact take_subset (by simp only [List.length_append]; omega) tokens
    · exact hs.mono fun token ht => by simp [ht]
  · intro site hsite k hk
    show k < t.scopes + Part.opened ps + p.opens ∨ t.scopes + Part.opened ps + p.opens + scopesAll p.items ≤ k
    rcases List.mem_append.mp hsite with hs | hs
    · obtain ⟨inner, hinner, rfl⟩ := List.mem_map.mp hs
      rcases List.mem_append.mp hk with hk | hk
      · rcases Part.mem_around hinner hk with ⟨rfl, q, hq, hi⟩ | hk
        · have := hpos q (by simp [hq]) hi
          omega
        · omega
      · have := h.around_lt k hk
        omega
    · have := h.after_around site hs k hk
      omega
  · intro site hsite
    rcases List.mem_append.mp hsite with hs | hs
    · obtain ⟨inner, hinner, rfl⟩ := List.mem_map.mp hs
      have hin := Part.startsIn (fun q hq => (hread q (by simp [hq])).startsIn) hinner
      exact hin.mono (List.subset_append_left _ _)
    · exact (h.after_starts site hs).mono fun token ht => by simp [ht]

end Splits

/-- **What the walk comes to splits what it reads.** -/
theorem Visits.splits {trees : List Tree} {t : Spot} (h : Visits (.top trees) t)
    (htop : Reads (.body trees) items rest) : ∃ items' rest' before after around behind,
      Reads t.job items' rest' ∧
        Splits (flattenAll trees) items t items' rest' before after around behind := by
  induction h with
  | refl => exact ⟨_, _, _, _, _, _, htop, .top htop⟩
  | tail _ hleads ih =>
    obtain ⟨items', rest', before, after, around, behind, hreads, hsplits⟩ := ih
    obtain ⟨parts, items'', rest'', hrule, hread, hmem⟩ := hleads
    obtain ⟨rfl, rfl⟩ := hreads.unique (hrule.reads hread)
    obtain ⟨ps, p, qs, rfl, rfl⟩ := exists_split hmem
    obtain ⟨_, _, _, _, hpart⟩ := hsplits.part hrule hread
    exact ⟨_, _, _, _, _, _, hread p (by simp), hpart⟩

end Outline

end DeferredLog
