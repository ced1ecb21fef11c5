import DeferredLog.Proofs.Core.Language
import DeferredLog.Proofs.Program.Scoping

/-!
# Scoping in the core language

The outline of a program of the core language, and what it says about the names bound around each call
statement: just what lexical scoping says.

* `Core.outlineAll` is the outline without the trees of statements.
* `Core.insidesAll_outline`: outlines and lexical scoping agree.
-/

namespace DeferredLog

/-! ## Outlines side by side -/

namespace Item

@[simp]
theorem bindsAll_append (a b : List Item) : bindsAll (a ++ b) = bindsAll a ++ bindsAll b := by
  induction a with
  | nil => rfl
  | cons item a ih => simp [bindsAll, ih]

@[simp]
theorem hoistsAll_append (a b : List Item) : hoistsAll (a ++ b) = hoistsAll a ++ hoistsAll b := by
  induction a with
  | nil => rfl
  | cons item a ih => simp [hoistsAll, ih]

@[simp]
theorem insidesAll_append (a b : List Item) :
    insidesAll (a ++ b) = insidesAll a ++ insidesAll b := by
  induction a with
  | nil => rfl
  | cons item a ih => simp [insidesAll, ih]

@[simp]
theorem bindsAll_map_bind (names : List String) : bindsAll (names.map .bind) = names := by
  induction names with
  | nil => rfl
  | cons name names ih => simp [bindsAll, binds, ih]

@[simp]
theorem hoistsAll_map_bind (names : List String) : hoistsAll (names.map .bind) = [] := by
  induction names with
  | nil => rfl
  | cons name names ih => simp [hoistsAll, hoists, ih]

@[simp]
theorem bindsAll_map_hoist (names : List String) : bindsAll (names.map .hoist) = [] := by
  induction names with
  | nil => rfl
  | cons name names ih => simp [bindsAll, binds, ih]

@[simp]
theorem hoistsAll_map_hoist (names : List String) : hoistsAll (names.map .hoist) = names := by
  induction names with
  | nil => rfl
  | cons name names ih => simp [hoistsAll, hoists, ih]

@[simp]
theorem insidesAll_map_bind (names : List String) : insidesAll (names.map .bind) = [] := by
  induction names with
  | nil => rfl
  | cons name names ih => simp [insidesAll, insides, ih]

mutual

/-- The trees of statements have no say in what an outline binds. -/
theorem names_erase (item : Item) : item.erase.binds = item.binds ∧ item.erase.hoists = item.hoists ∧
    item.erase.insides = item.insides :=
  match item with
  | .bind _ | .hoist _ | .statement _ => ⟨rfl, rfl, rfl⟩
  | .scope kind outside inside => by
    obtain ⟨hbinds, hhoists, hinsides⟩ := names_eraseAll outside
    obtain ⟨hbinds', hhoists', hinsides'⟩ := names_eraseAll inside
    have hrebound : rebound kind (eraseAll inside) = rebound kind inside := by
      cases kind <;> simp only [rebound, hbinds', hhoists']
    simp only [erase_scope, binds, hoists, insides, hbinds, hhoists, hinsides, hhoists', hinsides',
      hrebound, and_self]

theorem names_eraseAll (items : List Item) : bindsAll (eraseAll items) = bindsAll items ∧
    hoistsAll (eraseAll items) = hoistsAll items ∧ insidesAll (eraseAll items) = insidesAll items :=
  match items with
  | [] => ⟨rfl, rfl, rfl⟩
  | item :: items => by
    obtain ⟨hbinds, hhoists, hinsides⟩ := names_erase item
    obtain ⟨hbinds', hhoists', hinsides'⟩ := names_eraseAll items
    simp only [eraseAll_cons, bindsAll, hoistsAll, insidesAll, hbinds, hhoists, hinsides, hbinds', hhoists',
      hinsides', and_self]

end

end Item

namespace Core

open Item

/-! ## Outlines of programs -/

/-- How a declared variable is bound. -/
def Declarer.item (word : Declarer) (x : String) : Item :=
  if word = .varWord then .hoist x else .bind x

@[simp]
theorem Declarer.erase_item (word : Declarer) (x : String) : (word.item x).erase = word.item x := by
  cases word <;> rfl

@[simp]
theorem Declarer.statements_item (word : Declarer) (x : String) :
    (word.item x).statements = [] := by
  cases word <;> rfl

mutual

/-- The outline of an expression. -/
def Expr.outline : Expr → List Item
  | .name _ | .number _ => []
  | .call _ _ es => argumentOutline es
  | .function ps b | .arrow ps b => [.scope .function [] (ps.map .bind ++ outlineAll b)]

/-- The outline of the arguments of a call. -/
def argumentOutline : List Expr → List Item
  | [] => []
  | e :: es => e.outline ++ argumentOutline es

/-- The outline of a statement. -/
def Stmt.outline : Stmt → List Item
  | .call _ _ es => .statement [] :: argumentOutline es
  | .block b => [.scope .block [] (outlineAll b)]
  | .declare word x v => word.item x :: v.outline
  | .function f ps b => [.scope .function [.bind f] (ps.map .bind ++ outlineAll b)]
  | .ifElse e y n =>
    e.outline ++ [.scope .block [] (outlineAll y)] ++ [.scope .block [] (outlineAll n)]
  | .whileLoop e b => e.outline ++ [.scope .block [] (outlineAll b)]
  | .forOf word x e b =>
    [.scope .block [] ([word.item x] ++ e.outline ++ [.scope .block [] (outlineAll b)])]
  | .tryCatch t x b =>
    [.scope .block [] (outlineAll t)] ++
      [.scope .block [] ([.bind x] ++ [.scope .block [] (outlineAll b)])]

/-- The outline of some statements. -/
def outlineAll : List Stmt → List Item
  | [] => []
  | s :: b => s.outline ++ outlineAll b

end

/-! ## Names -/

mutual

/-- An expression binds no names around it. -/
theorem binds_expr (e : Expr) : bindsAll e.outline = [] ∧ hoistsAll e.outline = [] :=
  match e with
  | .name _ | .number _ => ⟨rfl, rfl⟩
  | .call _ _ es => binds_arguments es
  | .function .. | .arrow .. => ⟨rfl, rfl⟩

theorem binds_arguments (es : List Expr) :
    bindsAll (argumentOutline es) = [] ∧ hoistsAll (argumentOutline es) = [] :=
  match es with
  | [] => ⟨rfl, rfl⟩
  | e :: es => by simp [argumentOutline, binds_expr e, binds_arguments es]

end

theorem binds_item (word : Declarer) (x : String) :
    (word.item x).binds = (if word = .varWord then [] else [x]) ∧
      (word.item x).hoists = if word = .varWord then [x] else [] := by
  unfold Declarer.item
  split <;> exact ⟨rfl, rfl⟩

theorem binds_items (word : Declarer) (names : List String) :
    bindsAll (names.map word.item) = (if word = .varWord then [] else names) ∧
      hoistsAll (names.map word.item) = if word = .varWord then names else [] := by
  cases word with
  | letWord | constWord => exact ⟨bindsAll_map_bind names, hoistsAll_map_bind names⟩
  | varWord => exact ⟨bindsAll_map_hoist names, hoistsAll_map_hoist names⟩

/-- A statement binds the names that it declares. -/
theorem binds_stmt (s : Stmt) : bindsAll s.outline = s.declared := by
  cases s <;> simp [Stmt.outline, bindsAll, binds, binds_expr, binds_arguments, binds_item, Stmt.declared]

theorem binds_outline (b : List Stmt) : bindsAll (outlineAll b) = declaredAll b := by
  induction b with
  | nil => rfl
  | cons s b ih => simp [outlineAll, binds_stmt, ih, declaredAll]

mutual

theorem hoists_stmt (s : Stmt) : hoistsAll s.outline = s.vars :=
  match s with
  | .call _ _ es => by simp [Stmt.outline, hoistsAll, hoists, binds_arguments, Stmt.vars]
  | .block b => by simp [Stmt.outline, hoistsAll, hoists, Stmt.vars, hoists_outline b]
  | .declare word x v => by simp [Stmt.outline, hoistsAll, binds_expr, binds_item, Stmt.vars]
  | .function .. => by simp [Stmt.outline, hoistsAll, hoists, Stmt.vars]
  | .ifElse e y n => by
    simp [Stmt.outline, hoistsAll, hoists, binds_expr, Stmt.vars, hoists_outline y, hoists_outline n]
  | .whileLoop e b => by
    simp [Stmt.outline, hoistsAll, hoists, binds_expr, Stmt.vars, hoists_outline b]
  | .forOf word x e b => by
    simp [Stmt.outline, hoistsAll, hoists, binds_expr, binds_item, Stmt.vars, hoists_outline b]
  | .tryCatch t x b => by
    simp [Stmt.outline, hoistsAll, hoists, Stmt.vars, hoists_outline t, hoists_outline b]

/-- Statements hoist the names that are declared with `var`. -/
theorem hoists_outline (b : List Stmt) : hoistsAll (outlineAll b) = varsAll b :=
  match b with
  | [] => rfl
  | s :: b => by simp [outlineAll, hoists_stmt s, hoists_outline b, varsAll]

end

theorem rebound_block (b : List Stmt) : rebound .block (outlineAll b) = declaredAll b :=
  binds_outline b

theorem rebound_function (ps : List String) (b : List Stmt) :
    rebound .function (ps.map .bind ++ outlineAll b) = boundIn ps b := by
  simp [rebound, binds_outline, hoists_outline, boundIn]

/-! ## Calls -/

/-- Whether a name is bound around each call statement, told whether it is bound around all of them. -/
def seen (x : String) (around : List String) (insides : List (List String)) : List Bool :=
  insides.map fun names => names.contains x || around.contains x

@[simp]
theorem seen_nil (x : String) (around : List String) : seen x around [] = [] := rfl

@[simp]
theorem seen_append (x : String) (around : List String) (a b : List (List String)) :
    seen x around (a ++ b) = seen x around a ++ seen x around b :=
  List.map_append

/-- The names of a scope come before those around it. -/
theorem seen_map_append (x : String) (around names : List String) (a : List (List String)) :
    seen x around (a.map (· ++ names)) = seen x (names ++ around) a := by
  rw [seen, seen, List.map_map]
  refine List.map_congr_left fun inside _ => ?_
  simp only [Function.comp_apply, List.contains_append, Bool.or_assoc]

theorem seen_scope (x : String) (around : List String) (kind : ScopeKind) (outside inside : List Item) :
    seen x around (insidesAll [.scope kind outside inside]) =
      seen x around (insidesAll outside) ++
        seen x (rebound kind inside ++ around) (insidesAll inside) := by
  simp only [insidesAll, insides, List.append_nil, seen_append, seen_map_append]

theorem insides_item (word : Declarer) (x : String) : (word.item x).insides = [] := by
  unfold Declarer.item
  split <;> rfl

variable (x : String)

mutual

theorem seen_expr (around : List String) (e : Expr) :
    seen x around (insidesAll e.outline) = (e.scopes around).map (·.contains x) :=
  match e with
  | .name _ | .number _ => rfl
  | .call _ _ es => by
    rw [Expr.outline, Expr.scopes]
    exact seen_arguments around es
  | .function ps b | .arrow ps b => by
    rw [Expr.outline, Expr.scopes, seen_scope, rebound_function, insidesAll_append,
      insidesAll_map_bind, List.nil_append, seen_outline _ b]
    rfl

theorem seen_arguments (around : List String) (es : List Expr) :
    seen x around (insidesAll (argumentOutline es)) =
      (argumentScopes around es).map (·.contains x) :=
  match es with
  | [] => rfl
  | e :: es => by
    simp [argumentOutline, argumentScopes, seen_expr around e, seen_arguments around es]

theorem seen_stmt (around : List String) (s : Stmt) :
    seen x around (insidesAll s.outline) = (s.scopes around).map (·.contains x) :=
  match s with
  | .call _ _ es => by
    have hes := seen_arguments around es
    simp only [Stmt.outline, Stmt.scopes, insidesAll, insides, seen_append, hes]
    simp [seen]
  | .block b => by
    rw [Stmt.outline, Stmt.scopes, seen_scope, rebound_block, seen_outline _ b]
    rfl
  | .declare word y v => by
    rw [Stmt.outline, Stmt.scopes, insidesAll, insides_item, List.nil_append, seen_expr around v]
  | .function f ps b => by
    rw [Stmt.outline, Stmt.scopes, seen_scope, rebound_function, insidesAll_append,
      insidesAll_map_bind, List.nil_append, seen_outline _ b]
    rfl
  | .ifElse e y n => by
    rw [Stmt.outline, Stmt.scopes, insidesAll_append, insidesAll_append, seen_append, seen_append,
      seen_scope, seen_scope, rebound_block, rebound_block, seen_expr around e, seen_outline _ y,
      seen_outline _ n]
    simp [insidesAll]
  | .whileLoop e b => by
    rw [Stmt.outline, Stmt.scopes, insidesAll_append, seen_append, seen_scope, rebound_block,
      seen_expr around e, seen_outline _ b]
    simp [insidesAll]
  | .forOf word y e b => by
    have hbound : ∀ rest, bindsAll rest = [] → rebound .block ([word.item y] ++ rest) ++ around =
        if word = .varWord then around else y :: around := by
      intro rest hrest
      simp only [rebound, bindsAll_append, hrest, bindsAll, binds_item, List.append_nil]
      split <;> rfl
    have hhead : bindsAll (e.outline ++ [.scope .block [] (outlineAll b)]) = [] := by
      simp [binds_expr, bindsAll, binds]
    rw [Stmt.outline, Stmt.scopes, seen_scope, List.append_assoc, hbound _ hhead, insidesAll_append,
      insidesAll_append, seen_append, seen_append, seen_scope, rebound_block, seen_expr _ e,
      seen_outline _ b]
    simp [insidesAll, insides_item]
  | .tryCatch t y b => by
    have hbound : rebound .block ([Item.bind y] ++ [.scope .block [] (outlineAll b)]) = [y] := rfl
    rw [Stmt.outline, Stmt.scopes, insidesAll_append, seen_append, seen_scope, seen_scope, hbound,
      rebound_block, insidesAll_append, seen_append, seen_scope, rebound_block, seen_outline _ t,
      seen_outline _ b]
    simp [insidesAll, insides]

theorem seen_outline (around : List String) (b : List Stmt) :
    seen x around (insidesAll (outlineAll b)) = (scopesAll around b).map (·.contains x) :=
  match b with
  | [] => rfl
  | s :: b => by simp [outlineAll, scopesAll, seen_stmt around s, seen_outline around b]

end

/-- **Outlines and lexical scoping agree** on the names that are bound anew around each call. -/
theorem insidesAll_outline (b : List Stmt) :
    (insidesAll (outlineAll b)).map (·.contains x) = (scopesAll [] b).map (·.contains x) := by
  rw [← seen_outline x [] b]
  simp [seen]

end Core

end DeferredLog
