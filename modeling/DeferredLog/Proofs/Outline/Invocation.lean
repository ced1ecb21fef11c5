import DeferredLog.Proofs.Outline.Lockstep
import DeferredLog.Proofs.Outline.Nesting
import DeferredLog.Proofs.Token.Insertion

/-!
# Trees with invocations

What the trees of a program become when calls are invoked: every token moves, and behind each group
that ends where an invocation is inserted stands an empty group in parentheses.

* `Tree.invokedAll` are the trees with invocations, and `Growth.invoking` the growth that makes them.
* `Grows.invoked`: trees grow to just these, and no invocation stands behind the head of a statement.
* `Tree.flattenAll_invokedAll`: their tokens are those with two more behind each of the calls.
-/

namespace DeferredLog

open DeferredLog.Tree

namespace Tree

mutual

/-- A tree with the invocations in it and behind it. -/
def invoked (stops : List Nat) : Tree → List Tree
  | .leaf token => [.leaf (token.moved stops)]
  | .group delimiter opening closing trees =>
    .group delimiter (opening.moved stops) (closing.moved stops) (invokedAll stops trees) ::
      if closing.stop ∈ stops then
        [.group .paren (closing.opening stops) (closing.closing stops) []]
      else []

/-- Trees with the invocations in them and behind them. -/
def invokedAll (stops : List Nat) : List Tree → List Tree
  | [] => []
  | tree :: trees => tree.invoked stops ++ invokedAll stops trees

end

variable {stops : List Nat}

@[simp]
theorem invokedAll_nil : invokedAll stops [] = [] := rfl

@[simp]
theorem invokedAll_cons (tree : Tree) (trees : List Tree) :
    invokedAll stops (tree :: trees) = tree.invoked stops ++ invokedAll stops trees := rfl

@[simp]
theorem invokedAll_append (a b : List Tree) :
    invokedAll stops (a ++ b) = invokedAll stops a ++ invokedAll stops b := by
  induction a with
  | nil => rfl
  | cons tree a ih => simp [ih]

theorem invokedAll_map_leaf (tokens : List Token) :
    invokedAll stops (tokens.map .leaf) = (tokens.map (·.moved stops)).map .leaf := by
  induction tokens with
  | nil => rfl
  | cons token tokens ih => simp [invoked, ih]

theorem invoked_group_of_mem {delimiter : Delimiter} {a b : Token} {trees : List Tree}
    (h : b.stop ∈ stops) : invoked stops (.group delimiter a b trees) =
      [.group delimiter (a.moved stops) (b.moved stops) (invokedAll stops trees),
        .group .paren (b.opening stops) (b.closing stops) []] := by
  rw [invoked, if_pos h]

theorem invoked_group_of_notMem {delimiter : Delimiter} {a b : Token} {trees : List Tree}
    (h : b.stop ∉ stops) : invoked stops (.group delimiter a b trees) =
      [.group delimiter (a.moved stops) (b.moved stops) (invokedAll stops trees)] := by
  rw [invoked, if_neg h]

end Tree

/-! ## The growth -/

namespace CallSite

/-- Whether some trees are a call of a member, or a member of a member. -/
def isCall (trees : List Tree) : Bool :=
  match parts? trees with
  | some (head, path, arguments) =>
    head.ident?.isSome && path.all (·.ident?.isSome) && (arguments.inside? .paren).isSome
  | none => false

theorem isCall_iff {trees : List Tree} : isCall trees = true ↔ ∃ name, CallOf name trees := by
  simp only [callOf_iff, isCall]
  constructor
  · intro h
    split at h
    · rename_i head path arguments hp
      simp only [Bool.and_eq_true] at h
      obtain ⟨name, hn⟩ := Option.isSome_iff_exists.mp h.1.1
      exact ⟨name, head, path, arguments, hp, hn, h.1.2, h.2⟩
    · cases h
  · rintro ⟨name, head, path, arguments, hp, hn, hl, ha⟩
    simp [hp, hn, hl, ha]

end CallSite

/-- The growth that invokes the calls that end at some offsets. -/
def Growth.invoking (stops : List Nat) : Growth where
  move := Token.moved stops
  opening := Token.opening stops
  closing := Token.closing stops
  chosen trees := CallSite.isCall trees && decide (stopOf trees ∈ stops)
  move_kind _ := rfl
  move_text _ := rfl
  move_newlineBefore _ := rfl
  opening_newlineBefore _ := rfl
  chosen_call trees h := by
    simp only [Bool.and_eq_true] at h
    exact CallSite.isCall_iff.mp h.1

theorem Growth.chosen_invoking {stops : List Nat} {trees : List Tree} :
    (invoking stops).chosen trees = true ↔
      (∃ name, CallOf name trees) ∧ stopOf trees ∈ stops := by
  simp [invoking, CallSite.isCall_iff]

/-! ## Marks -/

/-- Whether every token that ends at one of the offsets ends a call among some statements. -/
def Marked (stops : List Nat) (tokens : List Token) (xs : List (List Tree)) : Prop :=
  ∀ t ∈ tokens, t.stop ∈ stops → ∃ x ∈ xs, (∃ name, CallOf name x) ∧ stopOf x = t.stop

/-- Whether each of some statements ends where one of some tokens does. -/
def Ends (tokens : List Token) (xs : List (List Tree)) : Prop :=
  ∀ x ∈ xs, ∃ t ∈ tokens, t.stop = stopOf x

namespace Marked

variable {stops : List Nat} {a b tokens : List Token} {ys xs : List (List Tree)}

theorem left (h : Marked stops (a ++ b) (ys ++ xs)) (ho : Token.Ordered (a ++ b)) (hx : Ends b xs) :
    Marked stops a ys := by
  intro t ht hs
  obtain ⟨x, hm, hc, he⟩ := h t (List.mem_append_left b ht) hs
  rcases List.mem_append.mp hm with hm | hm
  · exact ⟨x, hm, hc, he⟩
  · obtain ⟨u, hu, hus⟩ := hx x hm
    have := ho.between ht hu
    have := ho.right.nonempty u hu
    omega

theorem right (h : Marked stops (a ++ b) (ys ++ xs)) (ho : Token.Ordered (a ++ b)) (hy : Ends a ys) :
    Marked stops b xs := by
  intro t ht hs
  obtain ⟨x, hm, hc, he⟩ := h t (List.mem_append_right a ht) hs
  rcases List.mem_append.mp hm with hm | hm
  · obtain ⟨u, hu, hus⟩ := hy x hm
    have := ho.between hu ht
    have := ho.right.nonempty t ht
    omega
  · exact ⟨x, hm, hc, he⟩

theorem notMem {t : Token} (h : Marked stops [t] []) : t.stop ∉ stops := by
  intro hs
  obtain ⟨x, hx, -⟩ := h t List.mem_cons_self hs
  cases hx

/-- A token before others that no statement ends at is no mark. -/
theorem first {t : Token} (h : Marked stops (t :: tokens) xs) (ho : Token.Ordered (t :: tokens))
    (hx : Ends tokens xs) : t.stop ∉ stops ∧ Marked stops tokens xs := by
  have h' : Marked stops ([t] ++ tokens) ([] ++ xs) := h
  exact ⟨(h'.left ho hx).notMem, h'.right ho fun _ hm => (nomatch hm)⟩

/-- The marks of a group that no statement ends with are those inside. -/
theorem group {opening closing : Token}
    (h : Marked stops (opening :: (a ++ closing :: b)) (ys ++ xs))
    (ho : Token.Ordered (opening :: (a ++ closing :: b))) (hy : Ends a ys) (hx : Ends b xs) :
    opening.stop ∉ stops ∧ Marked stops a ys ∧ closing.stop ∉ stops ∧ Marked stops b xs := by
  have hx' : Ends (closing :: b) xs :=
    fun x hm => (hx x hm).imp fun _ ht => ⟨List.mem_cons_of_mem _ ht.1, ht.2⟩
  have hall : Ends (a ++ closing :: b) (ys ++ xs) := by
    intro x hm
    rcases List.mem_append.mp hm with hm | hm
    · exact (hy x hm).imp fun _ ht => ⟨List.mem_append_left _ ht.1, ht.2⟩
    · exact (hx' x hm).imp fun _ ht => ⟨List.mem_append_right _ ht.1, ht.2⟩
  obtain ⟨ha, h⟩ := h.first ho hall
  have hb := (h.right ho.tail hy).first ho.tail.right hx
  exact ⟨ha, h.left ho.tail hx', hb.1, hb.2⟩

/-- The marks of a call are its end and those inside. -/
theorem call {front : List Token} {opening closing : Token} {x : List Tree}
    (h : Marked stops (front ++ opening :: (a ++ closing :: b)) (x :: (ys ++ xs)))
    (ho : Token.Ordered (front ++ opening :: (a ++ closing :: b))) (he : stopOf x = closing.stop)
    (hy : Ends a ys) (hx : Ends b xs) : (∀ t ∈ front ++ [opening], t.stop ∉ stops) ∧
      Marked stops a ys ∧ Marked stops b xs := by
  have hback : Ends (closing :: b) ([x] ++ xs) := by
    intro z hz
    rcases List.mem_cons.mp hz with rfl | hz
    · exact ⟨closing, List.mem_cons_self, he.symm⟩
    · exact (hx z hz).imp fun _ ht => ⟨List.mem_cons_of_mem _ ht.1, ht.2⟩
  have hall : Ends (a ++ closing :: b) (ys ++ ([x] ++ xs)) := by
    intro z hz
    rcases List.mem_append.mp hz with hz | hz
    · exact (hy z hz).imp fun _ ht => ⟨List.mem_append_left _ ht.1, ht.2⟩
    · exact (hback z hz).imp fun _ ht => ⟨List.mem_append_right _ ht.1, ht.2⟩
  have h' : Marked stops ((front ++ [opening]) ++ (a ++ closing :: b)) ([] ++ (ys ++ ([x] ++ xs))) := by
    intro t ht hs
    obtain ⟨z, hz, hc⟩ := h t (by simpa using ht) hs
    refine ⟨z, ?_, hc⟩
    simp only [List.mem_cons, List.mem_append] at hz
    simp only [List.nil_append, List.mem_append, List.mem_singleton]
    rcases hz with hz | hz | hz <;> simp [hz]
  rw [List.append_cons] at ho
  have hfront := h'.left ho hall
  have hrest := h'.right ho fun _ hm => (nomatch hm)
  refine ⟨fun t ht hs => ?_, hrest.left ho.right hback, ?_⟩
  · obtain ⟨z, hz, -⟩ := hfront t ht hs
    cases hz
  · have hclose : Marked stops ([closing] ++ b) ([x] ++ xs) := hrest.right ho.right hy
    refine hclose.right ho.right.right fun z hz => ⟨closing, List.mem_cons_self, ?_⟩
    rw [List.mem_singleton.mp hz, he]

end Marked

namespace Sited

theorem ends {inner : Bool} {lead tokens : List Token} {xs : List (List Tree)}
    (h : ∀ x ∈ xs, Sited inner lead tokens x) (ho : Token.Ordered tokens) : Ends tokens xs :=
  fun x hx => ((h x hx).bounds ho).2.1

end Sited

/-! ## Safety -/

namespace Token

variable {stops : List Nat} {context : Context} {a b tokens : List Token}

theorem safe_append : Safe stops context (a ++ b) ↔
    Safe stops context a ∧ Safe stops (context.after a) b := by
  induction a generalizing context with
  | nil => simp [Safe]
  | cons t a ih => simp [Safe, ih, and_assoc]

theorem Safe.cons {t : Token} (ht : t.stop ∉ stops)
    (h : Safe stops (context.behind t.kind t.text) tokens) : Safe stops context (t :: tokens) :=
  ⟨fun hm => absurd hm ht, h⟩

theorem safe_of_notMem (h : ∀ t ∈ tokens, t.stop ∉ stops) : Safe stops context tokens := by
  induction tokens generalizing context with
  | nil => trivial
  | cons t tokens ih =>
    exact .cons (h t List.mem_cons_self) (ih fun t ht => h t (List.mem_cons_of_mem _ ht))

end Token

/-- Behind a member's name an operand ends. -/
theorem Context.left_behind_member {context : Context} {dot level : Token}
    (hd : dot.isPunct "." = true) (hl : level.kind = .ident) :
    (context.after [dot, level]).left = .operand := by
  simp only [Token.isPunct, Bool.and_eq_true, decide_eq_true_eq] at hd
  simp [Context.behind, Context.leftOf, hd, hl]

theorem kind_of_closed_paren {kind : TokenKind} (h : closed? kind = some .paren) :
    kind = .closeParen := by
  cases kind <;> simp_all [closed?]

theorem kind_of_opened_paren {kind : TokenKind} (h : opened? kind = some .paren) :
    kind = .openParen := by
  cases kind <;> simp_all [opened?]

theorem front_inj {front front' : List Token} {tree tree' : Tree}
    (h : front.map .leaf ++ [tree] = front'.map .leaf ++ [tree']) : front = front' :=
  List.map_injective_iff.mpr (fun _ _ h => Tree.leaf.inj h) (List.append_inj' h rfl).1

/-- The parentheses of a call are no head of a statement. -/
theorem CallOf.opensHead {name : String} {front : List Token} {a b : Token} {inside : List Tree}
    (h : CallOf name (front.map .leaf ++ [.group .paren a b inside])) (context : Context) :
    (context.after front).opensHead = false := by
  have member : ∀ (context : Context) {dot level : Token}, dot.isPunct "." = true →
      level.kind = .ident → (context.after [dot, level]).opensHead = false :=
    fun context _ _ hd hl => by rw [Context.opensHead, Context.left_behind_member hd hl]
  generalize hx : front.map Tree.leaf ++ [.group .paren a b inside] = x at h
  cases h with
  | @level head dot level opening closing arguments _ _ hd hl =>
    obtain rfl : front = [head, dot, level] := front_inj hx
    exact member (context.after [head]) hd hl
  | @modifier head dot level dot' modifier opening closing arguments _ _ _ _ hd hl =>
    obtain rfl : front = [head, dot, level, dot', modifier] := front_inj hx
    exact member (context.after [head, dot, level]) hd hl

/-- The parentheses of a call stand behind a member's name. -/
theorem CallOf.member {name : String} {front : List Token} {a b : Token} {inside : List Tree}
    (h : CallOf name (front.map .leaf ++ [.group .paren a b inside])) (before : Option Tree) :
    (lastOf before (front.dropLast.map .leaf)).any (isPunct ".") = true ∧
      (lastOf before (front.map .leaf)).any (·.ident?.isSome) = true := by
  generalize hx : front.map Tree.leaf ++ [.group .paren a b inside] = x at h
  cases h with
  | @level head dot level opening closing arguments _ _ hd hl =>
    obtain rfl : front = [head, dot, level] := front_inj hx
    simp [lastOf, Tree.isPunct, hd, Tree.ident?, hl]
  | @modifier head dot level dot' modifier opening closing arguments _ _ _ _ hd hl =>
    obtain rfl : front = [head, dot, level, dot', modifier] := front_inj hx
    simp [lastOf, Tree.isPunct, hd, Tree.ident?, hl]

theorem Token.Safe.kind_eq {stops : List Nat} {context : Context} {tokens : List Token}
    (h : Safe stops context tokens) : ∀ t ∈ tokens, t.stop ∈ stops → t.kind = .closeParen := by
  induction tokens generalizing context with
  | nil => simp
  | cons t tokens ih =>
    intro u hu hs
    rcases List.mem_cons.mp hu with rfl | hu
    · exact (h.1 hs).1
    · exact ih h.2 u hu hs

/-! ## Tokens of trees -/

namespace Tree

variable {stops : List Nat}

theorem invoked_token {token : Token} (h : closed? token.kind = none)
    (hm : token.stop ∈ stops → token.kind = .closeParen) :
    token.invoked stops = [token.moved stops] := by
  refine if_neg fun hs => ?_
  rw [hm hs] at h
  cases h

theorem closed?_of_opened {kind : TokenKind} {delimiter : Delimiter}
    (h : opened? kind = some delimiter) : closed? kind = none := by
  revert h
  cases kind <;> simp [opened?, closed?]

mutual

theorem flattenAll_invoked {around : Option Delimiter} (tree : Tree) (hp : tree.Paired around)
    (hm : ∀ t ∈ tree.flatten, t.stop ∈ stops → t.kind = .closeParen) :
    flattenAll (tree.invoked stops) = Token.invokedAll stops tree.flatten ∧
      PairedAll around (tree.invoked stops) :=
  match tree with
  | .leaf token => by
    have htoken := invoked_token hp.2.1 (hm token List.mem_cons_self)
    exact ⟨by simp [invoked, flattenAll, flatten, htoken], hp, trivial⟩
  | .group delimiter a b trees => by
    have ha := invoked_token (closed?_of_opened hp.1) (hm a (by simp [flatten]))
    have hi := flattenAll_invokedAll trees hp.2.2 fun t ht => hm t (by simp [flatten, ht])
    by_cases hb : b.stop ∈ stops
    · have hclose : b.invoked stops = [b.moved stops, b.opening stops, b.closing stops] := if_pos hb
      refine ⟨?_, ?_⟩
      · simp [invoked_group_of_mem hb, flattenAll, flatten, hi.1, ha, hclose]
      · rw [invoked_group_of_mem hb]
        exact ⟨⟨hp.1, hp.2.1, hi.2⟩, ⟨rfl, rfl, trivial⟩, trivial⟩
    · have hclose : b.invoked stops = [b.moved stops] := if_neg hb
      refine ⟨?_, ?_⟩
      · simp [invoked_group_of_notMem hb, flattenAll, flatten, hi.1, ha, hclose]
      · rw [invoked_group_of_notMem hb]
        exact ⟨⟨hp.1, hp.2.1, hi.2⟩, trivial⟩

/-- The tokens of trees with invocations are their tokens with invocations. -/
theorem flattenAll_invokedAll {around : Option Delimiter} (trees : List Tree)
    (hp : PairedAll around trees)
    (hm : ∀ t ∈ flattenAll trees, t.stop ∈ stops → t.kind = .closeParen) :
    flattenAll (invokedAll stops trees) = Token.invokedAll stops (flattenAll trees) ∧
      PairedAll around (invokedAll stops trees) :=
  match trees with
  | [] => ⟨rfl, trivial⟩
  | tree :: trees => by
    have hfirst := flattenAll_invoked tree hp.1 fun t ht => hm t (by simp [flattenAll, ht])
    have hrest := flattenAll_invokedAll trees hp.2 fun t ht => hm t (by simp [flattenAll, ht])
    refine ⟨?_, ?_⟩
    · rw [invokedAll_cons, flattenAll_append, hfirst.1, hrest.1, flattenAll,
        Token.invokedAll_append]
    · rw [invokedAll_cons, pairedAll_append]
      exact ⟨hfirst.2, hrest.2⟩

end

end Tree

/-! ## Places -/

namespace Tree

mutual

/-- Whether an invocation behind a tree stands behind the parentheses of a member's call, told the
two trees before it, and whether those inside do. -/
def Held (stops : List Nat) (dot level : Option Tree) : Tree → Prop
  | .leaf _ => True
  | .group delimiter _ closing trees =>
    (closing.stop ∈ stops → delimiter = .paren ∧ dot.any (isPunct ".") = true ∧
      level.any (·.ident?.isSome) = true) ∧ Placed stops none none trees

/-- Whether the invocations in some trees stand behind the parentheses of members' calls, told the
two trees before them. -/
def Placed (stops : List Nat) (dot level : Option Tree) : List Tree → Prop
  | [] => True
  | tree :: trees => tree.Held stops dot level ∧ Placed stops level (some tree) trees

end

variable {stops : List Nat} {dot level : Option Tree}

theorem Placed.append {a b : List Tree} (ha : Placed stops dot level a)
    (hb : ∀ dot level, Placed stops dot level b) : Placed stops dot level (a ++ b) := by
  induction a generalizing dot level with
  | nil => exact hb _ _
  | cons tree a ih => exact ⟨ha.1, ih ha.2⟩

theorem placed_map_leaf_append {tokens : List Token} {b : List Tree}
    (hb : Placed stops (lastOf level (tokens.dropLast.map .leaf))
      (lastOf level (tokens.map .leaf)) b) (hne : tokens ≠ []) :
    Placed stops dot level (tokens.map .leaf ++ b) := by
  induction tokens generalizing dot level with
  | nil => exact absurd rfl hne
  | cons token tokens ih =>
    cases tokens with
    | nil => exact ⟨trivial, hb⟩
    | cons next tokens => exact ⟨trivial, ih hb (by simp)⟩

end Tree

/-! ## Exactness -/

namespace Outline.Grows

variable {stops : List Nat} {top : Bool} {before : Option Tree} {trees trees' : List Tree}
  {xs xs' : List (List Tree)}

/-- What the growth makes of some trees: just the invocations, each of them harmless. -/
structure Exact (stops : List Nat) (trees trees' : List Tree) (xs xs' : List (List Tree)) : Prop where
  /-- Nothing else grows. -/
  trees_eq : trees' = invokedAll stops trees
  /-- The statements grow as the trees do. -/
  statements_eq : xs' = xs.map (invokedAll stops)
  /-- No invocation stands behind the head of a statement. -/
  safe : ∀ context, Token.Safe stops context (flattenAll trees)
  /-- Each invocation stands behind the call of a member. -/
  placed : ∀ dot level, Placed stops dot level trees

theorem Exact.group {delimiter : Delimiter} {a b : Token} {inside inside' : List Tree}
    {ys ys' : List (List Tree)} (hi : Exact stops inside inside' ys ys')
    (h : Exact stops trees trees' xs xs') (ha : a.stop ∉ stops) (hb : b.stop ∉ stops) :
    Exact stops (.group delimiter a b inside :: trees)
      (.group delimiter (a.moved stops) (b.moved stops) inside' :: trees') (ys ++ xs)
      (ys' ++ xs') where
  trees_eq := by simp [invoked_group_of_notMem hb, hi.trees_eq, h.trees_eq]
  statements_eq := by simp [hi.statements_eq, h.statements_eq]
  safe context := by
    rw [flattenAll_group]
    exact .cons ha (Token.safe_append.mpr ⟨hi.safe _, .cons hb (h.safe _)⟩)
  placed _ _ := ⟨⟨fun hm => absurd hm hb, hi.placed _ _⟩, h.placed _ _⟩

/-- **Trees grow by the invocations and nothing else**, if the offsets are ends of calls. -/
theorem invoked (h : Grows (.invoking stops) top before trees trees' xs xs')
    {around : Option Delimiter} (hp : PairedAll around trees) (ho : Token.Ordered (flattenAll trees))
    (hm : Marked stops (flattenAll trees) xs) : Exact stops trees trees' xs xs' := by
  induction h generalizing around with
  | nil => exact ⟨rfl, rfl, fun _ => trivial, fun _ _ => trivial⟩
  | @leaf top before token trees trees' xs xs' ht ih =>
    have hx := ht.sited hp.2 (by simpa using ⟨_, hp.1⟩)
    obtain ⟨htoken, hm⟩ := Marked.first hm ho (Sited.ends hx ho.tail)
    obtain ⟨h₁, h₂, h₃, h₄⟩ := ih hp.2 ho.tail hm
    exact ⟨by rw [h₁]; rfl, h₂, fun _ => .cons htoken (h₃ _), fun _ _ => ⟨trivial, h₄ _ _⟩⟩
  | group hi ht ihi ih =>
    rw [flattenAll_group] at ho hm
    obtain ⟨ha, hmi, hb, hm⟩ := hm.group ho (Sited.ends (hi.sited hp.1.2.2 (by simp)) ho.tail.left)
      (Sited.ends (ht.sited hp.2 (by simpa using ⟨_, hp.1⟩)) ho.tail.right.tail)
    exact (ihi hp.1.2.2 ho.tail.left hmi).group (ih hp.2 ho.tail.right.tail hm) ha hb
  | body _ hi ht ihi ih =>
    rw [flattenAll_group] at ho hm
    obtain ⟨ha, hmi, hb, hm⟩ := hm.group ho (Sited.ends (hi.sited hp.1.2.2 (by simp)) ho.tail.left)
      (Sited.ends (ht.sited hp.2 (by simpa using ⟨_, hp.1⟩)) ho.tail.right.tail)
    exact (ihi hp.1.2.2 ho.tail.left hmi).group (ih hp.2 ho.tail.right.tail hm) ha hb
  | @statement before tree chunk chunk' ys ys' trees trees' xs xs' hparted hchosen hi ht ihi ih =>
    rw [← List.cons_append] at hp ho hm ⊢
    rw [pairedAll_append] at hp
    rw [flattenAll_append] at ho hm
    have hl : ∀ t ∈ lastOf (some tree) chunk, ∃ around, t.Paired around :=
      fun t ht => ⟨_, pairedAll_iff.mp hp.1 t (lastOf_mem tree chunk t ht)⟩
    have hm : Marked stops (flattenAll (tree :: chunk) ++ flattenAll trees) (ys ++ xs) := by
      intro t htm hs
      obtain ⟨x, hx, hc, he⟩ := hm t htm hs
      rcases List.mem_cons.mp hx with rfl | hx
      · rw [Growth.chosen_invoking.mpr ⟨hc, he ▸ hs⟩] at hchosen
        cases hchosen
      · exact ⟨x, hx, hc, he⟩
    have hchunk := ihi hp.1 ho.left (hm.left ho (Sited.ends (ht.sited hp.2 hl) ho.right))
    have hrest := ih hp.2 ho.right (hm.right ho (Sited.ends (hi.sited hp.1 (by simp)) ho.left))
    refine ⟨?_, ?_, fun context => ?_, fun _ _ => (hchunk.placed _ _).append hrest.placed⟩
    · rw [hchunk.trees_eq, hrest.trees_eq, invokedAll_append]
    · simp [hchunk.trees_eq, hchunk.statements_eq, hrest.statements_eq]
    · rw [flattenAll_append]
      exact Token.safe_append.mpr ⟨hchunk.safe _, hrest.safe _⟩
  | @call before a b inside inside' ys ys' trees trees' xs xs' front hstarts hchosen hi ht ihi ih =>
    rw [pairedAll_append] at hp
    obtain ⟨-, hgroup, htrees⟩ := hp
    rw [flattenAll_append, flattenAll_map_leaf, flattenAll_group] at ho hm
    have hstop : stopOf (front.map .leaf ++ [.group .paren a b inside]) = b.stop := by
      simp [stopOf, Tree.stop]
    obtain ⟨⟨name, hcall⟩, hmem⟩ := Growth.chosen_invoking.mp hchosen
    rw [hstop] at hmem
    have hin := ho.right.tail.left
    have hrest := ho.right.tail.right.tail
    obtain ⟨hfront, hmi, hm⟩ := hm.call ho hstop
      (Sited.ends (hi.sited hgroup.2.2 (by simp)) hin)
      (Sited.ends (ht.sited htrees (by simpa using ⟨_, hgroup⟩)) hrest)
    have hinside := ihi hgroup.2.2 hin hmi
    have hbehind := ih htrees hrest hm
    refine ⟨?_, ?_, fun context => ?_, fun dot level => ?_⟩
    · simp [invokedAll_map_leaf, invoked_group_of_mem hmem, hinside.trees_eq, hbehind.trees_eq,
        Growth.invoking, Growth.extra]
    · simp [invokedAll_map_leaf, invoked_group_of_mem hmem, hinside.trees_eq, hinside.statements_eq,
        hbehind.statements_eq, Growth.invoking, Growth.extra]
    · rw [flattenAll_append, flattenAll_map_leaf, flattenAll_group, List.append_cons]
      refine Token.safe_append.mpr ⟨Token.safe_of_notMem hfront,
        Token.safe_append.mpr ⟨hinside.safe _, ⟨fun _ => ⟨?_, ?_⟩, hbehind.safe _⟩⟩⟩
      · exact kind_of_closed_paren hgroup.2.1
      · rw [(context_flattenAll _ inside hgroup.2.2).2]
        simp [Context.behind, Context.headsBehind, kind_of_opened_paren hgroup.1, hcall.opensHead]
    · obtain ⟨h₁, h₂⟩ := hcall.member level
      exact placed_map_leaf_append
        ⟨⟨fun _ => ⟨rfl, h₁, h₂⟩, hinside.placed _ _⟩, hbehind.placed _ _⟩ (Growth.front_ne_nil _ hchosen)

end Outline.Grows

end DeferredLog
