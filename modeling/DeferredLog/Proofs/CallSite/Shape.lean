import DeferredLog.CallSite

/-!
# The shape of a call

The trees that a call of the logger is made of, as a relation that does not mention how they are
looked at.

* `CallSite.callEnd?_eq_some_iff`: a statement has a call's end exactly if it has that shape, by one
  of the names, and the name is not bound anew around it.
-/

namespace DeferredLog

/-- `CallOf name trees`: the trees are `name.level(…)` or `name.level.modifier(…)`. -/
inductive CallOf (name : String) : List Tree → Prop
  | level {head dot level opening closing : Token} {arguments : List Tree}
      (head_kind : head.kind = .ident) (head_text : head.text = name) (dot_eq : dot.isPunct "." = true)
      (level_kind : level.kind = .ident) :
      CallOf name [.leaf head, .leaf dot, .leaf level, .group .paren opening closing arguments]
  | modifier {head dot level dot' modifier opening closing : Token} {arguments : List Tree}
      (head_kind : head.kind = .ident) (head_text : head.text = name) (dot_eq : dot.isPunct "." = true)
      (level_kind : level.kind = .ident) (dot_eq' : dot'.isPunct "." = true)
      (modifier_kind : modifier.kind = .ident) :
      CallOf name [.leaf head, .leaf dot, .leaf level, .leaf dot', .leaf modifier,
        .group .paren opening closing arguments]

namespace CallOf

variable {name : String} {trees : List Tree}

/-- A call is some tokens before a group in parentheses. -/
theorem split (h : CallOf name trees) :
    ∃ (front : List Token) (opening closing : Token) (arguments : List Tree),
    trees = front.map Tree.leaf ++ [.group .paren opening closing arguments] ∧
      (front.length = 3 ∨ front.length = 5) := by
  cases h with
  | @level head dot level opening closing arguments =>
    exact ⟨[head, dot, level], opening, closing, arguments, rfl, .inl rfl⟩
  | @modifier head dot level dot' modifier opening closing arguments =>
    exact ⟨[head, dot, level, dot', modifier], opening, closing, arguments, rfl, .inr rfl⟩

end CallOf

/-! ## What is looked at -/

theorem Tree.ident?_eq_some_iff {tree : Tree} {name : String} :
    tree.ident? = some name ↔ ∃ token, tree = .leaf token ∧ token.kind = .ident ∧ token.text = name := by
  cases tree with
  | leaf token => simp [Tree.ident?]
  | group => simp [Tree.ident?]

theorem Tree.ident?_isSome_iff {tree : Tree} :
    tree.ident?.isSome = true ↔ ∃ token, tree = .leaf token ∧ token.kind = .ident := by
  cases tree with
  | leaf token => simp [Tree.ident?]
  | group => simp [Tree.ident?]

theorem Tree.isPunct_iff {tree : Tree} {text : String} :
    tree.isPunct text = true ↔ ∃ token, tree = .leaf token ∧ token.isPunct text = true := by
  cases tree with
  | leaf token => simp [Tree.isPunct]
  | group => simp [Tree.isPunct]

theorem Tree.isPunct_ne {tree : Tree} {text other : String} (h : tree.isPunct text = true)
    (hne : text ≠ other) : tree.isPunct other = false := by
  obtain ⟨token, rfl, hp⟩ := Tree.isPunct_iff.mp h
  simp only [Token.isPunct, Bool.and_eq_true, decide_eq_true_eq] at hp
  simp [Tree.isPunct, Token.isPunct, hp.2, hne]

theorem Tree.ident?_of_isPunct {tree : Tree} {text : String} (h : tree.isPunct text = true) :
    tree.ident? = none := by
  obtain ⟨token, rfl, hp⟩ := Tree.isPunct_iff.mp h
  simp only [Token.isPunct, Bool.and_eq_true, decide_eq_true_eq] at hp
  simp [Tree.ident?, hp.1]

theorem Tree.inside?_isSome_iff {tree : Tree} {delimiter : Delimiter} :
    (tree.inside? delimiter).isSome = true ↔
      ∃ opening closing inside, tree = .group delimiter opening closing inside := by
  cases tree with
  | leaf => simp [Tree.inside?]
  | group d opening closing inside =>
    by_cases h : d = delimiter <;> simp [Tree.inside?, h]

namespace CallSite

/-- The parts of a call fit a call exactly if the trees are one. -/
theorem callOf_iff {trees : List Tree} {name : String} :
    CallOf name trees ↔ ∃ head path arguments, parts? trees = some (head, path, arguments) ∧
      head.ident? = some name ∧ path.all (·.ident?.isSome) = true ∧
        (arguments.inside? .paren).isSome = true := by
  constructor
  · rintro (@⟨h, d, l, a, b, inside, hk, ht, hd, hl⟩ |
      @⟨h, d, l, d', m, a, b, inside, hk, ht, hd, hl, hd', hm⟩)
    · refine ⟨.leaf h, [.leaf l], .group .paren a b inside, ?_,
        Tree.ident?_eq_some_iff.mpr ⟨h, rfl, hk, ht⟩, ?_,
        Tree.inside?_isSome_iff.mpr ⟨a, b, inside, rfl⟩⟩
      · simp [parts?, Tree.isPunct, hd]
      · simp [Tree.ident?, hl]
    · refine ⟨.leaf h, [.leaf l, .leaf m], .group .paren a b inside, ?_,
        Tree.ident?_eq_some_iff.mpr ⟨h, rfl, hk, ht⟩, ?_,
        Tree.inside?_isSome_iff.mpr ⟨a, b, inside, rfl⟩⟩
      · simp [parts?, Tree.isPunct, hd, hd']
      · simp [Tree.ident?, hl, hm]
  · rintro ⟨head, path, arguments, hp, hh, hl, ha⟩
    obtain ⟨h, rfl, hk, ht⟩ := Tree.ident?_eq_some_iff.mp hh
    obtain ⟨a, b, inside, rfl⟩ := Tree.inside?_isSome_iff.mp ha
    unfold parts? at hp
    split at hp
    · split at hp
      · rename_i hdot
        simp only [Option.some.injEq, Prod.mk.injEq] at hp
        obtain ⟨rfl, rfl, rfl⟩ := hp
        simp only [List.all_cons, List.all_nil, Bool.and_true] at hl
        obtain ⟨d, rfl, hd⟩ := Tree.isPunct_iff.mp hdot
        obtain ⟨l, rfl, hl₁⟩ := Tree.ident?_isSome_iff.mp hl
        exact .level hk ht hd hl₁
      · cases hp
    · split at hp
      · rename_i hdots
        simp only [Option.some.injEq, Prod.mk.injEq] at hp
        obtain ⟨rfl, rfl, rfl⟩ := hp
        simp only [List.all_cons, List.all_nil, Bool.and_true, Bool.and_eq_true] at hl hdots
        obtain ⟨d, rfl, hd⟩ := Tree.isPunct_iff.mp hdots.1
        obtain ⟨d', rfl, hd'⟩ := Tree.isPunct_iff.mp hdots.2
        obtain ⟨l, rfl, hl₁⟩ := Tree.ident?_isSome_iff.mp hl.1
        obtain ⟨m, rfl, hl₂⟩ := Tree.ident?_isSome_iff.mp hl.2
        exact .modifier hk ht hd hl₁ hd' hl₂
      · cases hp
    · cases hp

/-- A call ends where its arguments end. -/
theorem parts?_stop {statement : Statement} {head arguments : Tree} {path : List Tree}
    (h : parts? statement.trees = some (head, path, arguments)) :
    statement.stop = arguments.stop := by
  unfold parts? at h
  unfold Statement.stop
  split at h
  · rename_i ht
    split at h
    · simp only [Option.some.injEq, Prod.mk.injEq] at h
      obtain ⟨-, -, rfl⟩ := h
      simp [ht]
    · cases h
  · rename_i ht
    split at h
    · simp only [Option.some.injEq, Prod.mk.injEq] at h
      obtain ⟨-, -, rfl⟩ := h
      simp [ht]
    · cases h
  · cases h

/-- **A statement ends as a call of the logger exactly if it is one.** -/
theorem callEnd?_eq_some_iff {program : Program} {names : List String} {statement : Statement}
    {stop : Nat} : callEnd? program names statement = some stop ↔
      (∃ name ∈ names, CallOf name statement.trees ∧
        program.isShadowed name statement.scope = false) ∧ statement.stop = stop := by
  simp only [callEnd?, Option.bind_eq_bind, Option.bind_eq_some_iff, Prod.exists]
  constructor
  · rintro ⟨head, path, arguments, hp, name, hn, h⟩
    split at h
    · rename_i hc
      simp only [Bool.and_eq_true, List.contains_iff_mem, Bool.not_eq_true'] at hc
      obtain ⟨⟨⟨hm, hs⟩, hl⟩, ha⟩ := hc
      obtain rfl := Option.some.inj h
      exact ⟨⟨name, hm, callOf_iff.mpr ⟨head, path, arguments, hp, hn, hl, ha⟩, hs⟩, parts?_stop hp⟩
    · cases h
  · rintro ⟨⟨name, hm, hc, hs⟩, rfl⟩
    obtain ⟨head, path, arguments, hp, hn, hl, ha⟩ := callOf_iff.mp hc
    refine ⟨head, path, arguments, hp, name, hn, ?_⟩
    rw [if_pos, parts?_stop hp]
    simp only [Bool.and_eq_true, List.contains_iff_mem, Bool.not_eq_true']
    exact ⟨⟨⟨hm, hs⟩, hl⟩, ha⟩

end CallSite

end DeferredLog
