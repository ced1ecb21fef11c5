import DeferredLog.Program.Outline

/-!
# What an outline holds

The expression statements of an outline in order, and the outline without their trees. Together they
are the whole outline: the scopes and names of a program come from `Item.eraseAll` alone.
`Item.mapAll` is the outline with other trees.
-/

namespace DeferredLog

namespace Item

mutual

/-- The trees of the expression statements in a part of an outline, in order. -/
def statements : Item → List (List Tree)
  | .bind _ | .hoist _ => []
  | .statement trees => [trees]
  | .scope _ outside inside => statementsAll outside ++ statementsAll inside

/-- The trees of the expression statements in an outline, in order. -/
def statementsAll : List Item → List (List Tree)
  | [] => []
  | item :: items => item.statements ++ statementsAll items

end

mutual

/-- A part of an outline without the trees of its statements. -/
def erase : Item → Item
  | .bind name => .bind name
  | .hoist name => .hoist name
  | .statement _ => .statement []
  | .scope kind outside inside => .scope kind (eraseAll outside) (eraseAll inside)

/-- An outline without the trees of its statements. -/
def eraseAll : List Item → List Item
  | [] => []
  | item :: items => item.erase :: eraseAll items

end

@[simp]
theorem statements_bind (name : String) : (bind name).statements = [] := rfl

@[simp]
theorem statements_hoist (name : String) : (hoist name).statements = [] := rfl

@[simp]
theorem statements_statement (trees : List Tree) : (statement trees).statements = [trees] := rfl

@[simp]
theorem statements_scope (kind : ScopeKind) (outside inside : List Item) :
    (scope kind outside inside).statements = statementsAll outside ++ statementsAll inside := rfl

@[simp]
theorem statementsAll_nil : statementsAll [] = [] := rfl

@[simp]
theorem statementsAll_cons (item : Item) (items : List Item) :
    statementsAll (item :: items) = item.statements ++ statementsAll items := rfl

@[simp]
theorem statementsAll_append (a b : List Item) :
    statementsAll (a ++ b) = statementsAll a ++ statementsAll b := by
  induction a with
  | nil => rfl
  | cons item a ih => simp [ih]

@[simp]
theorem statementsAll_map_bind (names : List String) : statementsAll (names.map bind) = [] := by
  induction names with
  | nil => rfl
  | cons name names ih => simp [ih]

@[simp]
theorem statementsAll_map_hoist (names : List String) : statementsAll (names.map hoist) = [] := by
  induction names with
  | nil => rfl
  | cons name names ih => simp [ih]

@[simp]
theorem erase_bind (name : String) : (bind name).erase = bind name := rfl

@[simp]
theorem erase_hoist (name : String) : (hoist name).erase = hoist name := rfl

@[simp]
theorem erase_statement (trees : List Tree) : (statement trees).erase = statement [] := rfl

@[simp]
theorem erase_scope (kind : ScopeKind) (outside inside : List Item) :
    (scope kind outside inside).erase = scope kind (eraseAll outside) (eraseAll inside) := rfl

@[simp]
theorem eraseAll_nil : eraseAll [] = [] := rfl

@[simp]
theorem eraseAll_cons (item : Item) (items : List Item) :
    eraseAll (item :: items) = item.erase :: eraseAll items := rfl

@[simp]
theorem eraseAll_append (a b : List Item) : eraseAll (a ++ b) = eraseAll a ++ eraseAll b := by
  induction a with
  | nil => rfl
  | cons item a ih => simp [ih]

@[simp]
theorem eraseAll_map_bind (names : List String) :
    eraseAll (names.map bind) = names.map bind := by
  induction names with
  | nil => rfl
  | cons name names ih => simp [ih]

end Item

/-! ## Binding items -/

namespace Outline

@[simp]
theorem statementsAll_bindName (name : Option String) :
    Item.statementsAll (bindName name) = [] := by
  cases name <;> simp [bindName]

/-- The names that the head of a loop binds are all bound in the same way. -/
theorem exists_loopNames_eq (head : List Tree) : ∃ names : List String,
    loopNames head = names.map .bind ∨ loopNames head = names.map .hoist := by
  unfold loopNames
  split
  · exact ⟨[], .inl rfl⟩
  · dsimp only
    split
    · exact ⟨_, .inr rfl⟩
    · split
      · exact ⟨_, .inl rfl⟩
      · exact ⟨[], .inl rfl⟩

@[simp]
theorem statementsAll_loopNames (head : List Tree) : Item.statementsAll (loopNames head) = [] := by
  obtain ⟨names, h | h⟩ := exists_loopNames_eq head <;> simp [h]

end Outline

/-! ## Other trees -/

namespace Item

variable (f : List Tree → List Tree)

mutual

/-- A part of an outline with the trees of its statements replaced. -/
def map : Item → Item
  | .bind name => .bind name
  | .hoist name => .hoist name
  | .statement trees => .statement (f trees)
  | .scope kind outside inside => .scope kind (mapAll outside) (mapAll inside)

/-- An outline with the trees of its statements replaced. -/
def mapAll : List Item → List Item
  | [] => []
  | item :: items => item.map :: mapAll items

end

@[simp]
theorem map_statement (trees : List Tree) : (statement trees).map f = .statement (f trees) := rfl

@[simp]
theorem map_scope (kind : ScopeKind) (outside inside : List Item) :
    (scope kind outside inside).map f = .scope kind (mapAll f outside) (mapAll f inside) := rfl

@[simp]
theorem mapAll_nil : mapAll f [] = [] := rfl

@[simp]
theorem mapAll_cons (item : Item) (items : List Item) :
    mapAll f (item :: items) = item.map f :: mapAll f items := rfl

@[simp]
theorem mapAll_append (a b : List Item) : mapAll f (a ++ b) = mapAll f a ++ mapAll f b := by
  induction a with
  | nil => rfl
  | cons item a ih => simp [ih]

@[simp]
theorem mapAll_map_bind (names : List String) : mapAll f (names.map bind) = names.map bind := by
  induction names with
  | nil => rfl
  | cons name names ih =>
    rw [List.map_cons, mapAll_cons, ih]
    rfl

@[simp]
theorem mapAll_map_hoist (names : List String) : mapAll f (names.map hoist) = names.map hoist := by
  induction names with
  | nil => rfl
  | cons name names ih =>
    rw [List.map_cons, mapAll_cons, ih]
    rfl

@[simp]
theorem mapAll_map_names (hoisted : Bool) (names : List String) :
    mapAll f (names.map (if hoisted then hoist else bind)) =
      names.map (if hoisted then hoist else bind) := by
  cases hoisted with
  | true => exact mapAll_map_hoist f names
  | false => exact mapAll_map_bind f names

@[simp]
theorem mapAll_bindName (name : Option String) :
    mapAll f (Outline.bindName name) = Outline.bindName name := by
  cases name <;> rfl

@[simp]
theorem mapAll_loopNames (head : List Tree) :
    mapAll f (Outline.loopNames head) = Outline.loopNames head := by
  obtain ⟨names, h | h⟩ := Outline.exists_loopNames_eq head <;> simp [h]

theorem mapAll_ite (c : Bool) (a b : List Item) :
    mapAll f (if c then a else b) = if c then mapAll f a else mapAll f b := by
  cases c <;> rfl

mutual

theorem erase_map (item : Item) : (item.map f).erase = item.erase :=
  match item with
  | .bind _ | .hoist _ | .statement _ => rfl
  | .scope kind outside inside => by
    rw [map_scope, erase_scope, erase_scope, eraseAll_mapAll outside, eraseAll_mapAll inside]

/-- Only the trees of statements are replaced. -/
theorem eraseAll_mapAll (items : List Item) : eraseAll (mapAll f items) = eraseAll items :=
  match items with
  | [] => rfl
  | item :: items => by rw [mapAll_cons, eraseAll_cons, eraseAll_cons, erase_map item, eraseAll_mapAll items]

end

mutual

theorem statements_map (item : Item) : (item.map f).statements = item.statements.map f :=
  match item with
  | .bind _ | .hoist _ | .statement _ => rfl
  | .scope kind outside inside => by
    rw [map_scope, statements_scope, statements_scope, statementsAll_mapAll outside,
      statementsAll_mapAll inside, List.map_append]

/-- All of them are replaced. -/
theorem statementsAll_mapAll (items : List Item) :
    statementsAll (mapAll f items) = (statementsAll items).map f :=
  match items with
  | [] => rfl
  | item :: items => by
    rw [mapAll_cons, statementsAll_cons, statementsAll_cons, statements_map item,
      statementsAll_mapAll items, List.map_append]

end

end Item

end DeferredLog
