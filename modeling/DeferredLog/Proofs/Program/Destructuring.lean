import DeferredLog.Proofs.Program.Pattern
import DeferredLog.Proofs.Tree.Pieces

/-!
# Binding patterns

The grammar of binding patterns as a relation between the trees that a pattern is written as and the names
that it binds, set against the names that `boundNames` finds.

The search for names cuts at the first comma, then at the first equals sign or, in an object pattern, at
the first colon and only behind it at the equals sign. The default of a property that is a name alone
stands where a colon is looked for. So all names are found if no such default is a conditional
(`Pattern.Binds.read`), and else the names of what stands behind its colon are taken for them
(`Pattern.read_shorthandColon`).
-/

namespace DeferredLog

open DeferredLog.Tree

namespace Pattern

/-! ## The grammar -/

/-- A part of a binding pattern. -/
inductive Part where
  /-- A name, or an array or object pattern. -/
  | target
  /-- A target that may have a default. -/
  | element
  /-- What stands between the commas of an array pattern or of parameters: an element, the rest, or
  nothing. -/
  | slot
  /-- What stands between the commas of an object pattern. -/
  | property
  /-- Parts of one kind between commas. A comma may stand behind the last one. -/
  | many (part : Part)

/-- Whether a token is a name that can be bound. -/
def isBindable (token : Token) : Bool :=
  token.kind = .ident && !isReserved token.text

/-- Whether a tree can be the key of a property: a name, a string, a number, or an expression in
brackets. -/
def isKey : Tree → Bool
  | .leaf token => token.kind = .ident || token.kind = .string || token.kind = .number
  | .group delimiter _ _ _ => delimiter = .bracket

/-- Whether trees can be a default: there is no comma among them, but maybe in their groups. -/
def IsValue (trees : List Tree) : Prop :=
  ∀ tree ∈ trees, tree.isPunct "," = false

instance (trees : List Tree) : Decidable (IsValue trees) :=
  inferInstanceAs (Decidable (∀ tree ∈ trees, tree.isPunct "," = false))

/-- Whether parts of a kind can stand between commas: they have no commas but in groups. -/
def Part.isPiece : Part → Bool
  | .many _ => false
  | _ => true

/-- `Binds part trees names plain`: a part of a binding pattern is written as `trees` and binds `names`,
and `plain` says whether no property that is a name alone has a default with a colon in it. Colons in
groups do not count. -/
inductive Binds : Part → List Tree → List String → Bool → Prop
  | name {token} : isBindable token = true → Binds .target [.leaf token] [token.text] true
  | array {a b inside names plain} : Binds (.many .slot) inside names plain →
      Binds .target [.group .bracket a b inside] names plain
  | object {a b inside names plain} : Binds (.many .property) inside names plain →
      Binds .target [.group .brace a b inside] names plain
  | bare {trees names plain} : Binds .target trees names plain → Binds .element trees names plain
  | default {trees sign value names plain} : Binds .target trees names plain →
      sign.isPunct "=" = true → IsValue value → Binds .element (trees ++ sign :: value) names plain
  | hole : Binds .slot [] [] true
  | slot {trees names plain} : Binds .element trees names plain → Binds .slot trees names plain
  | restSlot {dots trees names plain} : dots.isPunct "..." = true → Binds .target trees names plain →
      Binds .slot (dots :: trees) names plain
  | shorthand {token} : isBindable token = true → Binds .property [.leaf token] [token.text] true
  | shorthandDefault {token sign value} : isBindable token = true → sign.isPunct "=" = true →
      IsValue value →
      Binds .property (.leaf token :: sign :: value) [token.text] (value.all (!isPunct ":" ·))
  | keyed {key colon trees names plain} : isKey key = true → colon.isPunct ":" = true →
      Binds .element trees names plain → Binds .property (key :: colon :: trees) names plain
  | restProperty {dots token} : dots.isPunct "..." = true → isBindable token = true →
      Binds .property [dots, .leaf token] [token.text] true
  | none {part} : Binds (.many part) [] [] true
  | last {part trees names plain} : part.isPiece = true → Binds part trees names plain →
      Binds (.many part) trees names plain
  | more {part trees comma rest names names' plain plain'} : part.isPiece = true →
      Binds part trees names plain → comma.isPunct "," = true → Binds (.many part) rest names' plain' →
      Binds (.many part) (trees ++ comma :: rest) (names ++ names') (plain && plain')

/-- The names that are found in a part. -/
def Part.read : Part → List Tree → List String
  | .target | .element | .slot => boundNames
  | .property => propertyNames
  | .many part => fun trees => (betweenCommas trees).flatMap part.read

variable {part : Part} {token : Token} {sign : Tree} {trees value : List Tree} {names : List String}
  {plain : Bool}

/-! ## Where parts are cut -/

theorem isPunct_of_isBindable (h : isBindable token = true) (text : String) :
    Tree.isPunct text (.leaf token) = false := by
  simp only [isBindable, Bool.and_eq_true, decide_eq_true_eq] at h
  simp [Tree.isPunct, Token.isPunct, h.1]

theorem isPunct_of_isKey {key : Tree} (h : isKey key = true) (text : String) :
    key.isPunct text = false := by
  cases key with
  | group => rfl
  | leaf token =>
    simp only [isKey, Bool.or_eq_true, decide_eq_true_eq] at h
    obtain (h | h) | h := h <;> simp [Tree.isPunct, Token.isPunct, h]

/-- A target is one tree, and no sign. -/
theorem Binds.target_inv (h : Binds .target trees names plain) :
    ∃ tree, trees = [tree] ∧ ∀ text, tree.isPunct text = false := by
  cases h with
  | name ht => exact ⟨_, rfl, isPunct_of_isBindable ht⟩
  | array | object => exact ⟨_, rfl, fun _ => rfl⟩

theorem isValue_cons {tree : Tree} (ht : tree.isPunct "," = false) (h : IsValue trees) :
    IsValue (tree :: trees) :=
  List.forall_mem_cons.mpr ⟨ht, h⟩

/-- There is no comma between commas. -/
theorem Binds.isValue (h : Binds part trees names plain) (hp : part.isPiece = true) :
    IsValue trees := by
  have htarget : ∀ {trees names plain}, Binds .target trees names plain → IsValue trees := by
    intro trees names plain h
    obtain ⟨tree, rfl, ht⟩ := h.target_inv
    exact isValue_cons (ht ",") (List.forall_mem_nil _)
  have helement : ∀ {trees names plain}, Binds .element trees names plain → IsValue trees := by
    intro trees names plain h
    cases h with
    | bare h => exact htarget h
    | default h hs hv =>
      exact List.forall_mem_append.mpr ⟨htarget h, isValue_cons (isPunct_ne hs (by decide)) hv⟩
  cases h with
  | name ht | shorthand ht =>
    exact isValue_cons (isPunct_of_isBindable ht ",") (List.forall_mem_nil _)
  | array | object => exact isValue_cons rfl (List.forall_mem_nil _)
  | bare h => exact htarget h
  | default h hs hv => exact helement (.default h hs hv)
  | hole => exact List.forall_mem_nil _
  | slot h => exact helement h
  | restSlot hd h => exact isValue_cons (isPunct_ne hd (by decide)) (htarget h)
  | shorthandDefault ht hs hv =>
    exact isValue_cons (isPunct_of_isBindable ht ",") (isValue_cons (isPunct_ne hs (by decide)) hv)
  | keyed hk hc h =>
    exact isValue_cons (isPunct_of_isKey hk ",")
      (isValue_cons (isPunct_ne hc (by decide)) (helement h))
  | restProperty hd ht =>
    exact isValue_cons (isPunct_ne hd (by decide))
      (isValue_cons (isPunct_of_isBindable ht ",") (List.forall_mem_nil _))
  | none | last | more => cases hp

/-! ## The names that are found -/

@[simp]
theorem boundNames_nil : boundNames [] = [] := by
  rw [boundNames_eq]
  rfl

/-- Where nothing stands nothing is found. -/
theorem Part.read_nil (part : Part) : part.read [] = [] := by
  induction part with
  | many part ih =>
    show part.read [] ++ [] = []
    rw [ih]
    rfl
  | property =>
    show boundNames [] = []
    exact boundNames_nil
  | target | element | slot => exact boundNames_nil

/-- A name binds itself. -/
theorem boundNames_leaf (h : isBindable token = true) : boundNames [.leaf token] = [token.text] := by
  have hcut : cutAt (isPunct "=") [.leaf token] = ([.leaf token], .none) :=
    cutAt_eq_none (List.forall_mem_singleton.mpr (isPunct_of_isBindable h "="))
  rw [boundNames_eq, hcut]
  have hdots := isPunct_of_isBindable h "..."
  simp only [isBindable, Bool.and_eq_true, decide_eq_true_eq, Bool.not_eq_true'] at h
  simp [targetNames, hdots, h]

/-- Behind dots stands a pattern. -/
theorem boundNames_dots {dots : Tree} (hd : dots.isPunct "..." = true)
    (h : Binds .target trees names plain) : boundNames (dots :: trees) = boundNames trees := by
  obtain ⟨tree, rfl, ht⟩ := h.target_inv
  have hcut : cutAt (isPunct "=") [dots, tree] = ([dots, tree], .none) :=
    cutAt_eq_none (by simp [isPunct_ne hd (show "..." ≠ "=" by decide), ht])
  rw [boundNames_eq, hcut]
  simp only [targetNames, hd, if_true]

/-- A default binds nothing. -/
theorem boundNames_default (h : Binds .target trees names plain) (hs : sign.isPunct "=" = true) :
    boundNames (trees ++ sign :: value) = boundNames trees := by
  obtain ⟨tree, rfl, ht⟩ := h.target_inv
  have hclear : ∀ t ∈ [tree], t.isPunct "=" = false := List.forall_mem_singleton.mpr (ht "=")
  rw [boundNames_eq, boundNames_eq, cutAt_append_cons hclear hs, cutAt_eq_none hclear]

/-- A property with no colon is read as a pattern. -/
theorem propertyNames_of_clear (h : ∀ t ∈ trees, t.isPunct ":" = false) :
    propertyNames trees = boundNames trees := by
  rw [propertyNames, cutAt_eq_none h]

/-- A property is read from behind its first colon. -/
theorem propertyNames_colon {front behind : List Tree} {colon : Tree}
    (h : ∀ t ∈ front, t.isPunct ":" = false) (hc : colon.isPunct ":" = true) :
    propertyNames (front ++ colon :: behind) = boundNames behind := by
  rw [propertyNames, cutAt_append_cons h hc]

/-- **All names of a pattern are found**, and no others, if no property that is a name alone has a default
with a colon in it. -/
theorem Binds.read (h : Binds part trees names plain) (hplain : plain = true) :
    part.read trees = names := by
  induction h with
  | name ht => exact boundNames_leaf ht
  | array _ ih =>
    rw [← ih hplain]
    exact boundNames_eq _
  | object _ ih =>
    rw [← ih hplain]
    exact boundNames_eq _
  | bare _ ih => exact ih hplain
  | default h hs _ ih => exact (boundNames_default h hs).trans (ih hplain)
  | hole => exact boundNames_nil
  | slot _ ih => exact ih hplain
  | restSlot hd h ih => exact (boundNames_dots hd h).trans (ih hplain)
  | shorthand ht =>
    refine (propertyNames_of_clear ?_).trans (boundNames_leaf ht)
    exact List.forall_mem_singleton.mpr (isPunct_of_isBindable ht ":")
  | @shorthandDefault token sign value ht hs _ =>
    have hvalue : ∀ t ∈ value, t.isPunct ":" = false := by simpa using hplain
    have hclear : ∀ t ∈ .leaf token :: sign :: value, t.isPunct ":" = false :=
      List.forall_mem_cons.mpr ⟨isPunct_of_isBindable ht ":",
        List.forall_mem_cons.mpr ⟨isPunct_ne hs (by decide), hvalue⟩⟩
    have hname : boundNames ([.leaf token] ++ sign :: value) = boundNames [.leaf token] :=
      boundNames_default (.name ht) hs
    exact (propertyNames_of_clear hclear).trans (hname.trans (boundNames_leaf ht))
  | @keyed key _ _ _ _ hk hc _ ih =>
    have hclear : ∀ t ∈ [key], t.isPunct ":" = false :=
      List.forall_mem_singleton.mpr (isPunct_of_isKey hk ":")
    exact (propertyNames_colon hclear hc).trans (ih hplain)
  | @restProperty dots token hd ht =>
    have hclear : ∀ t ∈ [dots, .leaf token], t.isPunct ":" = false := by
      simp [isPunct_ne hd (show "..." ≠ ":" by decide), isPunct_of_isBindable ht]
    exact (propertyNames_of_clear hclear).trans ((boundNames_dots hd (.name ht)).trans (boundNames_leaf ht))
  | none => exact Part.read_nil _
  | @last part trees names _ hp h ih =>
    show (betweenCommas trees).flatMap part.read = names
    rw [betweenCommas, pieces_eq_singleton (h.isValue hp), List.flatMap_singleton, ih hplain]
  | @more part trees comma rest names names' _ _ hp h hc _ ih₁ ih₂ =>
    obtain ⟨hplain, hplain'⟩ := Bool.and_eq_true_iff.mp hplain
    have hrest : (betweenCommas rest).flatMap part.read = names' := ih₂ hplain'
    show (betweenCommas (trees ++ comma :: rest)).flatMap part.read = names ++ names'
    rw [betweenCommas, pieces_append_cons (h.isValue hp) hc, List.flatMap_cons, ih₁ hplain, ← hrest,
      betweenCommas]

/-- The default of a property that is a name alone is taken for a pattern behind its first colon. -/
theorem read_shorthandColon {front behind : List Tree} {colon : Tree} (ht : isBindable token = true)
    (hs : sign.isPunct "=" = true) (hf : ∀ t ∈ front, t.isPunct ":" = false)
    (hc : colon.isPunct ":" = true) :
    Part.property.read (.leaf token :: sign :: (front ++ colon :: behind)) = boundNames behind := by
  have hclear : ∀ t ∈ .leaf token :: sign :: front, t.isPunct ":" = false :=
    List.forall_mem_cons.mpr ⟨isPunct_of_isBindable ht ":",
      List.forall_mem_cons.mpr ⟨isPunct_ne hs (by decide), hf⟩⟩
  exact propertyNames_colon hclear hc

end Pattern

end DeferredLog
