import DeferredLog.Proofs.Outline.Growth
import DeferredLog.Proofs.Token.Scans
import DeferredLog.Proofs.Tree.Paired

/-!
# How statements nest

Where the expression statements of a program stand among its tokens. `Grows` says where they stand
among its trees; with tokens that stand in order this is a statement about offsets.

* `Grows.sited`: a statement is a run of tokens, and its first name does not run together with a
  number before it.
* `Grows.pairwise`: of two statements the later one comes behind the earlier one or lies inside it.
* `Grows.outside`: no call straddles the end of an import.
-/

namespace DeferredLog

open DeferredLog.Tree

namespace Tree

/-! ## Ends -/

/-- Where some trees start. -/
def startOf (trees : List Tree) : Nat :=
  (trees.head?.map start).getD 0

/-- Where some trees end. -/
def stopOf (trees : List Tree) : Nat :=
  (trees.getLast?.map stop).getD 0

theorem stopOf_append (a : List Tree) {b : List Tree} (h : b ≠ []) : stopOf (a ++ b) = stopOf b := by
  simp [stopOf, List.getLast?_append, List.getLast?_eq_some_getLast h]

/-- Whether the second of two runs of trees comes behind the first or lies inside it. -/
def Apart (x y : List Tree) : Prop :=
  stopOf x ≤ startOf y ∨ startOf x < startOf y ∧ stopOf y < stopOf x

/-- Whether some trees lie before or behind the end of a tree. -/
def Clear (tree : Tree) (x : List Tree) : Prop :=
  tree.stop ≤ startOf x ∨ stopOf x ≤ tree.stop

theorem head?_flatten (tree : Tree) : ∃ first, tree.flatten.head? = some first ∧
    first.start = tree.start ∧ first.newlineBefore = tree.newlineBefore := by
  cases tree with
  | leaf token => exact ⟨token, rfl, rfl, rfl⟩
  | group _ opening => exact ⟨opening, rfl, rfl, rfl⟩

theorem getLast?_flatten (tree : Tree) : ∃ last, tree.flatten.getLast? = some last ∧
    last.stop = tree.stop := by
  cases tree with
  | leaf token => exact ⟨token, rfl, rfl⟩
  | group _ opening closing => exact ⟨closing, by simp [flatten, List.getLast?_cons], rfl⟩

theorem head?_flattenAll {trees : List Tree} (h : trees ≠ []) :
    ∃ first, (flattenAll trees).head? = some first ∧ first.start = startOf trees := by
  cases trees with
  | nil => exact absurd rfl h
  | cons tree trees =>
    obtain ⟨first, hf, hs, -⟩ := head?_flatten tree
    exact ⟨first, by rw [flattenAll, List.head?_append, hf]; rfl, hs⟩

theorem getLast?_flattenAll {trees : List Tree} (h : trees ≠ []) :
    ∃ last, (flattenAll trees).getLast? = some last ∧ last.stop = stopOf trees := by
  rw [← List.dropLast_concat_getLast h]
  obtain ⟨last, hl, hs⟩ := getLast?_flatten (trees.getLast h)
  refine ⟨last, ?_, ?_⟩
  · rw [flattenAll_append, List.getLast?_append, flattenAll, flattenAll, List.append_nil, hl]
    rfl
  · simp [stopOf, hs]

theorem exists_stop (tree : Tree) : ∃ t ∈ tree.flatten, t.stop = tree.stop := by
  obtain ⟨last, hl, hs⟩ := getLast?_flatten tree
  exact ⟨last, List.mem_of_getLast? hl, hs⟩

theorem mem_flattenAll {tree : Tree} {trees : List Tree} (h : tree ∈ trees) {token : Token}
    (ht : token ∈ tree.flatten) : token ∈ flattenAll trees := by
  obtain ⟨a, b, rfl⟩ := List.append_of_mem h
  simp [flattenAll, ht]

theorem exists_stop_of_mem {tree : Tree} {trees : List Tree} (h : tree ∈ trees) :
    ∃ t ∈ flattenAll trees, t.stop = tree.stop :=
  (exists_stop tree).imp fun _ ht => ⟨mem_flattenAll h ht.1, ht.2⟩

theorem flattenAll_group (delimiter : Delimiter) (opening closing : Token)
    (inside trees : List Tree) :
    flattenAll (.group delimiter opening closing inside :: trees) =
      opening :: (flattenAll inside ++ closing :: flattenAll trees) := by
  simp [flattenAll, flatten]

theorem flattenAll_map_leaf (tokens : List Token) : flattenAll (tokens.map .leaf) = tokens := by
  induction tokens with
  | nil => rfl
  | cons token tokens ih => simp [flattenAll, flatten, ih]

end Tree

namespace Token.Ordered

variable {a b x trees : List Tree} {t u : Tree}

theorem startOf_lt_stopOf (h : Ordered (flattenAll x)) (hx : x ≠ []) : startOf x < stopOf x := by
  obtain ⟨first, hfirst, hstart⟩ := head?_flattenAll hx
  obtain ⟨last, hlast, hstop⟩ := getLast?_flattenAll hx
  have hmem := List.mem_of_getLast? hlast
  have hle := h.start_le_of_head? hfirst hmem
  have hlt := h.nonempty last hmem
  rw [← hstart, ← hstop]
  omega

theorem start_lt_stop (h : Ordered (flattenAll trees)) (ht : t ∈ trees) : t.start < t.stop := by
  obtain ⟨front, back, rfl⟩ := List.append_of_mem ht
  rw [List.append_cons, flattenAll_append, flattenAll_append] at h
  exact h.left.right.startOf_lt_stopOf (List.cons_ne_nil t [])

/-- A tree ends before those behind it start. -/
theorem stop_le_start (h : Ordered (flattenAll (a ++ t :: b))) (hu : u ∈ b) : t.stop ≤ u.start := by
  obtain ⟨last, hlast, hstop⟩ := getLast?_flatten t
  obtain ⟨first, hfirst, hstart, -⟩ := head?_flatten u
  rw [flattenAll_append, flattenAll] at h
  rw [← hstop, ← hstart]
  exact h.right.between (List.mem_of_getLast? hlast) (mem_flattenAll hu (List.mem_of_head? hfirst))

end Token.Ordered

/-! ## Sites -/

/-- The tokens of a tree, if there is one. -/
def leadOf (before : Option Tree) : List Token :=
  (before.map flatten).getD []

/-- Whether some trees are a run of the tokens behind `lead`, with tokens on both sides if `inner`.
A first name does not run together with a number before it. -/
def Sited (inner : Bool) (lead tokens : List Token) (x : List Tree) : Prop :=
  x ≠ [] ∧ ∃ pre post, tokens = pre ++ (flattenAll x ++ post) ∧
    (inner = true → pre ≠ [] ∧ post ≠ []) ∧
    ∀ last, (lead ++ pre).getLast? = some last → last.kind = .number →
      ∀ tree ∈ x.head?, tree.ident? = none ∨ tree.newlineBefore = true

namespace Sited

variable {inner : Bool} {lead lead' tokens : List Token} {x : List Tree}

/-- A site has a first and a last token, and the one starts before the other ends. -/
theorem bounds (h : Sited inner lead tokens x) (ho : Token.Ordered tokens) :
    (∃ t ∈ tokens, t.start = startOf x) ∧ (∃ t ∈ tokens, t.stop = stopOf x) ∧
      startOf x < stopOf x := by
  obtain ⟨hx, pre, post, rfl, -⟩ := h
  obtain ⟨first, hf, hfs⟩ := head?_flattenAll hx
  obtain ⟨last, hl, hls⟩ := getLast?_flattenAll hx
  have hfm := List.mem_of_head? hf
  have hlm := List.mem_of_getLast? hl
  have hox : Token.Ordered (flattenAll x) := ho.right.left
  exact ⟨⟨first, by simp [hfm], hfs⟩, ⟨last, by simp [hlm], hls⟩, hox.startOf_lt_stopOf hx⟩

/-- What is sited in some tokens ends before what is sited in later ones starts. -/
theorem stop_le_start {inner' : Bool} {a b : List Token} {y : List Tree} (hx : Sited inner lead a x)
    (hy : Sited inner' lead' b y) (ho : Token.Ordered (a ++ b)) : stopOf x ≤ startOf y := by
  obtain ⟨-, ⟨t, ht, hts⟩, -⟩ := hx.bounds ho.left
  obtain ⟨⟨u, hu, hus⟩, -⟩ := hy.bounds ho.right
  rw [← hts, ← hus]
  exact ho.between ht hu

/-- What is sited behind a token's end starts there or later. -/
theorem le_start {a : List Token} {stop : Nat} (h : Sited inner lead tokens x)
    (ho : Token.Ordered (a ++ tokens)) (hm : ∃ t ∈ a, t.stop = stop) : stop ≤ startOf x := by
  obtain ⟨⟨u, hu, hus⟩, -⟩ := h.bounds ho.right
  obtain ⟨t, ht, rfl⟩ := hm
  rw [← hus]
  exact ho.between ht hu

/-- What is sited before a token ends before that token does. -/
theorem stop_le {b : List Token} {stop : Nat} (h : Sited inner lead tokens x)
    (ho : Token.Ordered (tokens ++ b)) (hm : ∃ t ∈ b, t.stop = stop) : stopOf x ≤ stop := by
  obtain ⟨-, ⟨u, hu, hus⟩, -⟩ := h.bounds ho.left
  obtain ⟨t, ht, rfl⟩ := hm
  rw [← hus]
  exact Nat.le_trans (ho.between hu ht) (Nat.le_of_lt (ho.right.nonempty t ht))

/-- What is sited inside some trees lies strictly between their ends. -/
theorem between {y : List Tree} (h : Sited true lead (flattenAll x) y)
    (ho : Token.Ordered (flattenAll x)) : startOf x < startOf y ∧ stopOf y < stopOf x := by
  obtain ⟨hy, pre, post, he, hin, -⟩ := h
  obtain ⟨hpre, hpost⟩ := hin rfl
  have hx : x ≠ [] := by
    rintro rfl
    simp [flattenAll, hpre] at he
  obtain ⟨first, hf, hfs⟩ := head?_flattenAll hx
  obtain ⟨last, hl, hls⟩ := getLast?_flattenAll hx
  obtain ⟨first', hf', hfs'⟩ := head?_flattenAll hy
  obtain ⟨last', hl', hls'⟩ := getLast?_flattenAll hy
  rw [he] at hf hl ho
  have hfm : first ∈ pre := by
    obtain ⟨p, pre, rfl⟩ := List.exists_cons_of_ne_nil hpre
    cases hf
    exact List.mem_cons_self
  have hlm : last ∈ post := by
    rw [← List.append_assoc, List.getLast?_append, List.getLast?_eq_some_getLast hpost] at hl
    cases hl
    exact List.getLast_mem hpost
  have h₁ := ho.between hfm (List.mem_append_left post (List.mem_of_head? hf'))
  have h₂ := ho.right.between (List.mem_of_getLast? hl') hlm
  have h₃ := ho.nonempty first (List.mem_append_left _ hfm)
  have h₄ := ho.right.nonempty last (List.mem_append_right _ hlm)
  omega

/-- A site stays one behind more tokens that end as what stood before it. -/
theorem behind (h : Sited inner lead' tokens x) {a : List Token} (ha : a ≠ [])
    (hl : a.getLast? = lead'.getLast?) (lead : List Token) : Sited inner lead (a ++ tokens) x := by
  obtain ⟨hx, pre, post, rfl, hin, hlast⟩ := h
  refine ⟨hx, a ++ pre, post, by simp, fun h => ⟨by simp [ha], (hin h).2⟩, fun last hm => ?_⟩
  refine hlast last ?_
  rw [← hm, List.getLast?_append, List.getLast?_append, List.getLast?_append, ← hl]
  cases h : a.getLast? with
  | none => exact absurd (List.getLast?_eq_none_iff.mp h) ha
  | some => cases pre.getLast? <;> rfl

/-- A site in a group is one outside of it. -/
theorem inside (h : Sited inner [] tokens x) {opening : Token} (ho : opening.kind ≠ .number)
    (lead : List Token) (closing : Token) (more : List Token) (inner' : Bool) :
    Sited inner' lead (opening :: (tokens ++ closing :: more)) x := by
  obtain ⟨hx, pre, post, rfl, -, hlast⟩ := h
  refine ⟨hx, opening :: pre, post ++ closing :: more, by simp, fun _ => by simp,
    fun last hm hk => ?_⟩
  refine hlast last ?_ hk
  rw [List.getLast?_append, List.getLast?_cons] at hm
  cases hp : pre.getLast? with
  | none =>
    simp only [hp, Option.getD_none, Option.some_or, Option.some.injEq] at hm
    exact absurd hk (hm ▸ ho)
  | some d => simpa [hp] using hm

/-- A site with tokens on both sides is one among more tokens. -/
theorem within (h : Sited true lead' tokens x) (lead more : List Token) (inner' : Bool) :
    Sited inner' lead (tokens ++ more) x := by
  obtain ⟨hx, pre, post, rfl, hin, hlast⟩ := h
  obtain ⟨hpre, hpost⟩ := hin rfl
  refine ⟨hx, pre, post ++ more, by simp, fun _ => ⟨hpre, by simp [hpost]⟩, fun last hm => ?_⟩
  refine hlast last ?_
  rw [← hm, List.getLast?_append, List.getLast?_append]
  cases h : pre.getLast? with
  | none => exact absurd (List.getLast?_eq_none_iff.mp h) hpre
  | some => rfl

end Sited

namespace Growth

theorem front_ne_nil (g : Growth) {front : List Token} {a b : Token} {inside : List Tree}
    (h : g.chosen (front.map .leaf ++ [.group .paren a b inside]) = true) : front ≠ [] := by
  rintro rfl
  obtain ⟨name, hc⟩ := g.chosen_call _ h
  cases hc

end Growth

namespace Outline

/-- No delimiter is a number. -/
theorem kind_ne_number_of_opened {kind : TokenKind} {delimiter : Delimiter}
    (h : opened? kind = some delimiter) : kind ≠ .number := by
  rintro rfl
  cases h

theorem kind_ne_number_of_closed {kind : TokenKind} {delimiter : Delimiter}
    (h : closed? kind = some delimiter) : kind ≠ .number := by
  rintro rfl
  cases h

/-- A statement starts where it may. -/
theorem Parted.sited {before : Option Tree} {tree : Tree} (h : Parted before tree)
    (hb : ∀ t ∈ before, ∃ around, t.Paired around) (chunk : List Tree) (more : List Token) :
    Sited false (leadOf before) (flattenAll (tree :: chunk) ++ more) (tree :: chunk) := by
  refine ⟨by simp, [], more, rfl, fun h => (nomatch h), fun last hl hk t ht => ?_⟩
  obtain rfl : tree = t := Option.some.inj ht
  rcases h with h | h | h
  · exact .inl h
  · exact .inr h
  · rw [List.append_nil] at hl
    cases before with
    | none => cases hl
    | some b =>
      cases b with
      | leaf token =>
        cases hl
        exact absurd hk (h _ rfl)
      | group d a c inside =>
        obtain ⟨around, -, hc, -⟩ := hb _ rfl
        have hl : (flatten (.group d a c inside)).getLast? = some last := hl
        rw [flatten, ← List.cons_append, List.getLast?_concat] at hl
        cases hl
        exact absurd hk (kind_ne_number_of_closed hc)

namespace Grows

variable {g : Growth} {top : Bool} {before : Option Tree} {trees trees' : List Tree}
  {xs xs' : List (List Tree)}

theorem leadOf_lastOf (tree : Tree) (chunk : List Tree) :
    (flattenAll (tree :: chunk)).getLast? = (leadOf (lastOf (some tree) chunk)).getLast? := by
  induction chunk generalizing tree with
  | nil => simp [flattenAll, lastOf, leadOf]
  | cons next chunk ih =>
    rw [flattenAll, List.getLast?_append, ih next, lastOf]
    obtain ⟨last, hl, -⟩ := getLast?_flattenAll (List.cons_ne_nil next chunk)
    rw [← ih next, hl]
    rfl

theorem lastOf_mem (tree : Tree) (chunk : List Tree) :
    ∀ t ∈ lastOf (some tree) chunk, t ∈ tree :: chunk := by
  induction chunk generalizing tree with
  | nil => simp [lastOf]
  | cons next chunk ih => exact fun t ht => List.mem_cons_of_mem _ (ih next t ht)

theorem sited_group {delimiter : Delimiter} {a b : Token} {inside trees : List Tree}
    {x : List Tree} {ys xs : List (List Tree)} {around : Option Delimiter} {deep : Bool}
    (hp : PairedAll around (.group delimiter a b inside :: trees))
    (hy : ∀ y ∈ ys, Sited deep [] (flattenAll inside) y)
    (hx : ∀ x ∈ xs, Sited (!top) (flatten (.group delimiter a b inside)) (flattenAll trees) x)
    (hm : x ∈ ys ++ xs) (lead : List Token) :
    Sited (!top) lead (flattenAll (.group delimiter a b inside :: trees)) x := by
  rcases List.mem_append.mp hm with hm | hm
  · rw [flattenAll_group]
    exact (hy x hm).inside (kind_ne_number_of_opened hp.1.1) _ _ _ _
  · exact (hx x hm).behind (by simp [flatten]) rfl _

theorem pairwise_group {delimiter : Delimiter} {a b : Token} {inside trees : List Tree}
    {ys xs : List (List Tree)} {deep inner : Bool} {lead lead' : List Token}
    (ho : Token.Ordered (flattenAll (.group delimiter a b inside :: trees)))
    (hys : Token.Ordered (flattenAll inside) → ys.Pairwise Apart)
    (hy : ∀ y ∈ ys, Sited deep lead (flattenAll inside) y)
    (hxs : Token.Ordered (flattenAll trees) → xs.Pairwise Apart)
    (hx : ∀ x ∈ xs, Sited inner lead' (flattenAll trees) x) : (ys ++ xs).Pairwise Apart := by
  rw [flattenAll_group] at ho
  have hin := ho.tail
  refine List.pairwise_append.mpr ⟨hys hin.left, hxs hin.right.tail, fun y hy' x hx' => .inl ?_⟩
  exact (hy y hy').stop_le_start (hx x hx') (hin.sublist (by simp))

theorem pairwise_statement {x : List Tree} {more : List Token} {ys xs : List (List Tree)}
    {inner : Bool} {lead lead' : List Token} (hne : x ≠ [])
    (ho : Token.Ordered (flattenAll x ++ more)) (hys : ys.Pairwise Apart)
    (hy : ∀ y ∈ ys, Sited true lead (flattenAll x) y) (hxs : xs.Pairwise Apart)
    (hx : ∀ z ∈ xs, Sited inner lead' more z) : (x :: (ys ++ xs)).Pairwise Apart := by
  have self : Sited false [] (flattenAll x) x :=
    ⟨hne, [], [], by simp, fun h => (nomatch h), fun _ h => (nomatch h)⟩
  refine .cons (fun z hz => ?_) (List.pairwise_append.mpr ⟨hys, hxs, fun y hy' z hz => .inl ?_⟩)
  · rcases List.mem_append.mp hz with hz | hz
    · exact .inr ((hy z hz).between ho.left)
    · exact .inl (self.stop_le_start (hx z hz) ho)
  · exact (hy y hy').stop_le_start (hx z hz) ho

/-- **A statement is a run of tokens** that a number does not run into. -/
theorem sited (h : Grows g top before trees trees' xs xs') {around : Option Delimiter}
    (hp : PairedAll around trees) (hb : ∀ t ∈ before, ∃ around, t.Paired around) :
    ∀ x ∈ xs, Sited (!top) (leadOf before) (flattenAll trees) x := by
  induction h generalizing around with
  | nil => simp
  | @leaf top before token trees trees' xs xs' _ ih =>
    intro x hx
    exact (ih hp.2 (by simpa using ⟨_, hp.1⟩) x hx).behind (List.cons_ne_nil token []) rfl _
  | group _ _ ihi ih =>
    intro x hx
    exact sited_group hp (ihi hp.1.2.2 (by simp)) (ih hp.2 (by simpa using ⟨_, hp.1⟩)) hx _
  | body _ _ _ ihi ih =>
    intro x hx
    exact sited_group hp (ihi hp.1.2.2 (by simp)) (ih hp.2 (by simpa using ⟨_, hp.1⟩)) hx _
  | @statement before tree chunk chunk' ys ys' trees trees' xs xs' hparted _ _ _ ihi ih =>
    rw [← List.cons_append, pairedAll_append] at hp
    intro x hx
    rw [← List.cons_append, flattenAll_append]
    rcases List.mem_cons.mp hx with rfl | hx
    · exact hparted.sited hb _ _
    rcases List.mem_append.mp hx with hx | hx
    · exact (ihi hp.1 (by simp) x hx).within _ _ _
    · have hl : ∀ t ∈ lastOf (some tree) chunk, ∃ around, t.Paired around :=
        fun t ht => ⟨_, pairedAll_iff.mp hp.1 t (lastOf_mem tree chunk t ht)⟩
      refine (ih hp.2 hl x hx).behind ?_ (leadOf_lastOf tree chunk) _
      obtain ⟨first, hf, -⟩ := head?_flattenAll (List.cons_ne_nil tree chunk)
      rintro hn
      rw [hn] at hf
      cases hf
  | @call before a b inside inside' ys ys' trees trees' xs xs' front hstarts hc _ _ ihi ih =>
    rw [pairedAll_append] at hp
    obtain ⟨hfront, hgroup, htrees⟩ := hp
    intro x hx
    rw [flattenAll_append, flattenAll_map_leaf, flattenAll_group]
    cases front with
    | nil => exact absurd rfl (g.front_ne_nil hc)
    | cons first front =>
      rcases List.mem_cons.mp hx with rfl | hx
      · have := (hstarts _ rfl).sited hb (front.map .leaf ++ [.group .paren a b inside])
          (flattenAll trees)
        simpa [flattenAll, flatten, flattenAll_map_leaf] using this
      rcases List.mem_append.mp hx with hx | hx
      · exact ((ihi hgroup.2.2 (by simp) x hx).inside (kind_ne_number_of_opened hgroup.1) _ _ _
          _).behind (List.cons_ne_nil first front) rfl _
      · have := (ih htrees (by simpa using ⟨_, hgroup⟩) x hx).behind
          (a := first :: front ++ flatten (.group .paren a b inside)) (by simp) (by
            rw [List.getLast?_append]
            obtain ⟨last, hl, -⟩ := getLast?_flatten (.group .paren a b inside)
            rw [leadOf, Option.map_some, Option.getD_some, hl]
            rfl) (leadOf before)
        simpa [flatten] using this

theorem sited_call {a b : Token} {inside inside' : List Tree} {front : List Token}
    {ys ys' : List (List Tree)} {around : Option Delimiter}
    (h : Grows g false none inside inside' ys ys')
    (hc : g.chosen (front.map .leaf ++ [.group .paren a b inside]) = true)
    (hp : (Tree.group .paren a b inside).Paired around) :
    ∀ y ∈ ys, Sited true [] (flattenAll (front.map .leaf ++ [.group .paren a b inside])) y := by
  intro y hy
  rw [flattenAll_append, flattenAll_map_leaf, flattenAll_group]
  exact ((h.sited hp.2.2 (by simp) y hy).inside (kind_ne_number_of_opened hp.1) _ _ _ _).behind
    (g.front_ne_nil hc) rfl []

/-! ## Order -/

/-- **Of two statements the later one comes behind the earlier one or lies inside it.** -/
theorem pairwise (h : Grows g top before trees trees' xs xs') {around : Option Delimiter}
    (hp : PairedAll around trees) (ho : Token.Ordered (flattenAll trees)) : xs.Pairwise Apart := by
  induction h generalizing around with
  | nil => exact .nil
  | leaf _ ih => exact ih hp.2 ho.tail
  | group hi ht ihi ih =>
    exact pairwise_group ho (ihi hp.1.2.2) (hi.sited hp.1.2.2 (by simp)) (ih hp.2)
      (ht.sited hp.2 (by simpa using ⟨_, hp.1⟩))
  | body _ hi ht ihi ih =>
    exact pairwise_group ho (ihi hp.1.2.2) (hi.sited hp.1.2.2 (by simp)) (ih hp.2)
      (ht.sited hp.2 (by simpa using ⟨_, hp.1⟩))
  | @statement before tree chunk chunk' ys ys' trees trees' xs xs' hparted _ hi ht ihi ih =>
    rw [← List.cons_append, pairedAll_append] at hp
    rw [← List.cons_append, flattenAll_append] at ho
    have hl : ∀ t ∈ lastOf (some tree) chunk, ∃ around, t.Paired around :=
      fun t ht => ⟨_, pairedAll_iff.mp hp.1 t (lastOf_mem tree chunk t ht)⟩
    exact pairwise_statement (List.cons_ne_nil tree chunk) ho (ihi hp.1 ho.left)
      (hi.sited hp.1 (by simp)) (ih hp.2 ho.right) (ht.sited hp.2 hl)
  | @call before a b inside inside' ys ys' trees trees' xs xs' front hstarts hc hi ht ihi ih =>
    rw [List.append_cons, pairedAll_append, pairedAll_append] at hp
    obtain ⟨⟨-, hgroup, -⟩, htrees⟩ := hp
    rw [List.append_cons, flattenAll_append] at ho
    have hin : Token.Ordered (flattenAll inside) := by
      refine ho.left.sublist ?_
      rw [flattenAll_append, flattenAll_group]
      exact (List.sublist_append_left _ _).trans
        ((List.sublist_cons_self _ _).trans (List.sublist_append_right _ _))
    exact pairwise_statement (by simp) ho (ihi hgroup.2.2 hin) (hi.sited_call hc hgroup)
      (ih htrees ho.right) (ht.sited htrees (by simpa using ⟨_, hgroup⟩))

/-! ## Cuts -/

theorem clear_group {delimiter : Delimiter} {a b : Token} {inside trees x : List Tree} {tree : Tree}
    {ys xs : List (List Tree)} {deep inner : Bool} {lead lead' : List Token}
    (ho : Token.Ordered (flattenAll (.group delimiter a b inside :: trees)))
    (hm : tree ∈ .group delimiter a b inside :: trees)
    (hy : ∀ y ∈ ys, Sited deep lead (flattenAll inside) y)
    (hx : ∀ x ∈ xs, Sited inner lead' (flattenAll trees) x)
    (ih : tree ∈ trees → x ∈ xs → Clear tree x) (hxm : x ∈ ys ++ xs) : Clear tree x := by
  have ho' := ho
  rw [flattenAll_group] at ho'
  rcases List.mem_append.mp hxm with hxm | hxm
  · refine .inr ((hy x hxm).stop_le ho'.tail ?_)
    rcases List.mem_cons.mp hm with rfl | hm
    · exact ⟨b, List.mem_cons_self, rfl⟩
    · exact (exists_stop_of_mem hm).imp fun _ ht => ⟨List.mem_cons_of_mem _ ht.1, ht.2⟩
  · rcases List.mem_cons.mp hm with rfl | hm
    · exact .inl ((hx x hxm).le_start ho (exists_stop _))
    · exact ih hm hxm

theorem clear_statement {x z trees : List Tree} {tree : Tree} {ys xs : List (List Tree)}
    {inner : Bool} {lead lead' : List Token} (ho : Token.Ordered (flattenAll x ++ flattenAll trees))
    (hne : x ≠ []) (hm : tree ∈ x ++ trees) (hxc : z = x → tree ∉ x)
    (hy : ∀ y ∈ ys, Sited true lead (flattenAll x) y)
    (hx : ∀ z ∈ xs, Sited inner lead' (flattenAll trees) z)
    (ihi : tree ∈ x → z ∈ ys → Clear tree z) (ih : tree ∈ trees → z ∈ xs → Clear tree z)
    (hz : z ∈ x :: (ys ++ xs)) : Clear tree z := by
  rcases List.mem_append.mp hm with ht | ht
  · rcases List.mem_cons.mp hz with rfl | hz
    · exact absurd ht (hxc rfl)
    rcases List.mem_append.mp hz with hz | hz
    · exact ihi ht hz
    · exact .inl ((hx z hz).le_start ho (exists_stop_of_mem ht))
  · rcases List.mem_cons.mp hz with rfl | hz
    · have self : Sited false [] (flattenAll z) z :=
        ⟨hne, [], [], by simp, fun h => (nomatch h), fun _ h => (nomatch h)⟩
      exact .inr (self.stop_le ho (exists_stop_of_mem ht))
    rcases List.mem_append.mp hz with hz | hz
    · exact .inr ((hy z hz).stop_le ho (exists_stop_of_mem ht))
    · exact ih ht hz

/-- A call does not straddle the end of a tree at the top that is no part of a call. -/
theorem outside (h : Grows g top before trees trees' xs xs') {around : Option Delimiter}
    (hp : PairedAll around trees) (ho : Token.Ordered (flattenAll trees)) {tree : Tree}
    (hm : tree ∈ trees) (hc : ∀ name x, CallOf name x → tree ∉ x) :
    ∀ x ∈ xs, (∃ name, CallOf name x) → Clear tree x := by
  induction h generalizing around with
  | nil => cases hm
  | @leaf top before token trees trees' xs xs' ht ih =>
    intro x hx hcall
    rcases List.mem_cons.mp hm with rfl | hm
    · have ho : Token.Ordered ([token] ++ flattenAll trees) := ho
      exact .inl ((ht.sited hp.2 (by simpa using ⟨_, hp.1⟩) x hx).le_start ho
        ⟨token, List.mem_cons_self, rfl⟩)
    · exact ih hp.2 ho.tail hm x hx hcall
  | group hi ht ihi ih =>
    intro x hx hcall
    refine clear_group ho hm (hi.sited hp.1.2.2 (by simp))
      (ht.sited hp.2 (by simpa using ⟨_, hp.1⟩)) (fun hm hx => ?_) hx
    exact ih hp.2 ho.right hm x hx hcall
  | body _ hi ht ihi ih =>
    intro x hx hcall
    refine clear_group ho hm (hi.sited hp.1.2.2 (by simp))
      (ht.sited hp.2 (by simpa using ⟨_, hp.1⟩)) (fun hm hx => ?_) hx
    exact ih hp.2 ho.right hm x hx hcall
  | @statement before first chunk chunk' ys ys' trees trees' xs xs' hparted _ hi ht ihi ih =>
    rw [← List.cons_append] at hp ho hm
    rw [pairedAll_append] at hp
    rw [flattenAll_append] at ho
    have hl : ∀ t ∈ lastOf (some first) chunk, ∃ around, t.Paired around :=
      fun t ht => ⟨_, pairedAll_iff.mp hp.1 t (lastOf_mem first chunk t ht)⟩
    rintro z hz ⟨name, hcall⟩
    refine clear_statement ho (List.cons_ne_nil first chunk) hm (fun h => h ▸ hc name z hcall)
      (hi.sited hp.1 (by simp)) (ht.sited hp.2 hl) (fun hm hz => ?_) (fun hm hz => ?_) hz
    · exact ihi hp.1 ho.left hm z hz ⟨name, hcall⟩
    · exact ih hp.2 ho.right hm z hz ⟨name, hcall⟩
  | @call before a b inside inside' ys ys' trees trees' xs xs' front hstarts hchosen hi ht ihi ih =>
    rw [List.append_cons] at hp ho hm
    rw [pairedAll_append, pairedAll_append] at hp
    obtain ⟨⟨-, hgroup, -⟩, htrees⟩ := hp
    rw [flattenAll_append] at ho
    obtain ⟨name', hcall'⟩ := g.chosen_call _ hchosen
    rintro z hz ⟨name, hcall⟩
    refine clear_statement ho (by simp) hm (fun h => h ▸ hc name z hcall)
      (hi.sited_call hchosen hgroup) (ht.sited htrees (by simpa using ⟨_, hgroup⟩))
      (fun hm _ => absurd hm (hc name' _ hcall')) (fun hm hz => ?_) hz
    exact ih htrees ho.right hm z hz ⟨name, hcall⟩

end Grows

end Outline

end DeferredLog
