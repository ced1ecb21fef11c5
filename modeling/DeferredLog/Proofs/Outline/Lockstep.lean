import DeferredLog.Proofs.Outline.Exact
import DeferredLog.Proofs.Program.Pattern

/-!
# Derivations grow with their trees
-/

namespace DeferredLog

open DeferredLog.Tree

namespace Outline

/-! ## What stands before -/

/-- Two places in an expression that are the same to what stands behind them. -/
def Likens (before before' : Before) : Prop :=
  before'.isDot = before.isDot ∧ before'.arrowNames = before.arrowNames

theorem Likens.refl (before : Before) : Likens before before := ⟨rfl, rfl⟩

section Likens

variable {g : Growth} {before before' : Before} {token token' : Token} {trees trees' : List Tree}

theorem likens_leaf (h : Alike (.leaf token) (.leaf token')) :
    Likens (.of (.leaf token)) (.of (.leaf token')) := by
  have hd := h.isDot_eq
  cases h with
  | leaf kind text =>
    simp only [Likens, Before.of, hd, kind]
    split
    · exact ⟨rfl, rfl⟩
    · split
      · rename_i hk
        rw [text (.inl hk)]
        exact ⟨rfl, rfl⟩
      · exact ⟨rfl, rfl⟩

theorem likens_group {delimiter : Delimiter} {a b a' b' : Token} (h : Similar g trees trees') :
    Likens (.of (.group delimiter a b trees)) (.of (.group delimiter a' b' trees')) := by
  simp only [Likens, Before.of]
  split
  · exact ⟨rfl, congrArg some h.parameterNames_eq⟩
  · exact ⟨rfl, rfl⟩

end Likens

/-! ## Where statements can start -/

section Starts

variable {tree : Tree} {trees : List Tree}

theorem starts_nil (before : Option Tree) : Starts before [] := by
  intro tree h
  cases h

theorem starts_group {delimiter : Delimiter} {a b : Token} {inside : List Tree}
    (trees : List Tree) : Starts (some (.group delimiter a b inside)) trees := by
  intro tree _
  exact .inr (.inr fun token h => by cases h)

theorem starts_none (trees : List Tree) : Starts none trees := by
  intro tree _
  exact .inr (.inr fun token h => by cases h)

theorem starts_isIdent {word : String} (h : tree.isIdent word = true) (trees : List Tree) :
    Starts (some tree) trees := by
  obtain ⟨token, rfl, hk, -⟩ := Tree.ident?_eq_some_iff.mp (of_decide_eq_true h)
  intro _ _
  refine .inr (.inr fun token' h => ?_)
  cases h
  simp [hk]

theorem starts_isPunct {text : String} (h : tree.isPunct text = true) (trees : List Tree) :
    Starts (some tree) trees := by
  obtain ⟨token, rfl, hp⟩ := Tree.isPunct_iff.mp h
  simp only [Token.isPunct, Bool.and_eq_true, decide_eq_true_eq] at hp
  intro _ _
  refine .inr (.inr fun token' h => ?_)
  cases h
  simp [hp.1]

theorem parted_isPunct {before : Option Tree} {text : String} (h : tree.isPunct text = true) :
    Parted before tree := by
  obtain ⟨token, rfl, hp⟩ := Tree.isPunct_iff.mp h
  simp only [Token.isPunct, Bool.and_eq_true, decide_eq_true_eq] at hp
  exact .inl (by simp [ident?, hp.1])

/-- Only blocks and expression statements start with anything but a word or a semicolon. -/
theorem starts_of_form {rest : List Tree} {form : Form} (h : Form.of tree rest = form)
    (hb : form ≠ .block) (he : form ≠ .expression) (trees : List Tree) :
    Starts (some tree) trees := by
  unfold Form.of at h
  split at h
  · rename_i hp
    exact starts_isPunct hp trees
  · split at h
    · exact absurd h.symm hb
    · split at h
      · rename_i hi
        exact starts_isIdent (decide_eq_true hi) trees
      · exact absurd h.symm he

end Starts

/-! ## Reading again -/

variable {g : Growth}

/-- A way to read some trees: what it gives, and what it leaves. -/
abbrev Reading := List Tree → List Item → List Tree → Prop

/-- One reading after another, up to trees that begin as `middle` does. -/
def Reading.then (first : Reading) (middle : List Tree) (second : Reading) : Reading :=
  fun trees items rest => ∃ middle' ys zs, items = ys ++ zs ∧ first trees ys middle' ∧
    Ahead 2 middle middle' ∧ second middle' zs rest

/-- Some trees were read up to `rest`, and what was read can grow: `fits` says behind what it can
stand, and the grown trees have the given reading, whatever stands behind them that begins alike. -/
structure Grown (g : Growth) (top : Bool) (fits : Option Tree → Prop) (reading : Reading)
    (trees : List Tree) (items : List Item) (rest : List Tree) : Prop where
  grows : ∃ front front' xs', trees = front ++ rest ∧
    (∀ before, fits before → Grows g top before front front' (Item.statementsAll items) xs' ∧
      (top = true → Starts (lastOf before front) rest)) ∧
    (∃ before, fits before) ∧
    ∀ rest', Ahead 2 rest rest' → ∃ items', Item.statementsAll items' = xs' ∧
      Item.eraseAll items' = Item.eraseAll items ∧ reading (front' ++ rest') items' rest'

/-- Behind anything. -/
def Anywhere (_ : Option Tree) : Prop := True

theorem exists_opensBody : ∃ before, opensBody before = true :=
  ⟨some (.leaf ⟨.punct, "=>", 0, false⟩), by decide⟩

namespace Grown

variable {top : Bool} {fits fits' : Option Tree → Prop} {reading reading' : Reading}
  {trees rest : List Tree} {items : List Item}

theorem nil (h : reading [] [] []) (hex : ∃ before, fits before) :
    Grown g top fits reading [] [] [] := by
  refine ⟨[], [], [], rfl, fun _ _ => ⟨.nil, fun _ => starts_nil _⟩, hex, ?_⟩
  intro rest' hr
  obtain rfl := Ahead.nil_iff.mp hr
  exact ⟨[], rfl, rfl, h⟩

/-- No trees. -/
theorem stay : Grown g top (Starts · trees) (fun trees' items' rest' => items' = [] ∧
    trees' = rest') trees [] trees :=
  ⟨[], [], [], rfl, fun _ hb => ⟨.nil, fun _ => hb⟩, ⟨none, starts_none _⟩,
    fun _ _ => ⟨[], rfl, rfl, rfl, rfl⟩⟩

/-- Trees that hold no statements. -/
theorem still (front : List Tree) (hs : ∀ before, top = true → Starts (lastOf before front) rest) :
    Grown g top Anywhere (fun trees' items' rest' => items' = [] ∧ ∃ front',
      List.Forall₂ Alike front front' ∧ trees' = front' ++ rest') (front ++ rest) [] rest := by
  refine ⟨front, mapAll g.move front, [], rfl, fun before _ => ⟨.still g top before front, hs _⟩,
    ⟨none, trivial⟩, fun rest' _ => ⟨[], rfl, rfl, rfl, _, g.alike_mapAll front, rfl⟩⟩

/-- A tree that holds no statements. -/
theorem tree {tree : Tree} (hs : top = true → Starts (some tree) rest) :
    Grown g top Anywhere (fun trees' items' rest' => items' = [] ∧ ∃ tree', Alike tree tree' ∧
      trees' = tree' :: rest') (tree :: rest) [] rest :=
  ⟨[tree], [tree.map g.move], [], rfl, fun before _ => ⟨.still_tree g top before tree .nil, hs⟩,
    ⟨none, trivial⟩, fun _ _ => ⟨[], rfl, rfl, rfl, _, g.alike_map tree, rfl⟩⟩

/-- A word that holds no statements. -/
theorem word {word : String} (h : behindWord? word trees = some rest) :
    Grown g top Anywhere (fun trees' items' rest' => items' = [] ∧
      behindWord? word trees' = some rest') trees [] rest := by
  obtain ⟨tree, rfl, hw⟩ := behindWord?_eq_some h
  exact ⟨[tree], [tree.map g.move], [], rfl,
    fun before _ => ⟨.still_tree g top before tree .nil, fun _ => starts_isIdent hw _⟩,
    ⟨none, trivial⟩, fun _ _ => ⟨[], rfl, rfl, rfl,
      behindWord?_cons (by rwa [(g.alike_map tree).isIdent_eq])⟩⟩

/-- The trees inside a group, read as an expression. -/
theorem inside (delimiter : Delimiter) (a b : Token)
    (h : Grown g false Anywhere reading trees items []) :
    Grown g top Anywhere (fun trees' items' rest' => ∃ a' b' inside', Similar g trees inside' ∧
      trees' = .group delimiter a' b' inside' :: rest' ∧ reading inside' items' [])
      (.group delimiter a b trees :: rest) items rest := by
  obtain ⟨front, front', xs', hf, hg, -, hk⟩ := h
  rw [List.append_nil] at hf
  subst hf
  obtain ⟨items', hx, he, hk⟩ := hk [] trivial
  rw [List.append_nil] at hk
  obtain ⟨hg, -⟩ := hg none trivial
  refine ⟨[.group delimiter a b trees], [.group delimiter (g.move a) (g.move b) front'], xs', rfl,
    fun before _ => ⟨?_, fun _ => starts_group _⟩, ⟨none, trivial⟩,
    fun _ _ => ⟨items', hx, he, _, _, front', ⟨_, _, hg⟩, rfl, hk⟩⟩
  simpa using Grows.group hg (@Grows.nil g top (some (.group delimiter a b trees)))

/-- The trees of an expression. -/
theorem chunk (h : Grown g false Anywhere reading trees items [])
    (hs : ∀ before, top = true → Starts (lastOf before trees) rest) :
    Grown g top Anywhere (fun trees' items' rest' => ∃ chunk, Similar g trees chunk ∧
      trees' = chunk ++ rest' ∧ reading chunk items' []) (trees ++ rest) items rest := by
  obtain ⟨front, front', xs', hf, hg, -, hk⟩ := h
  rw [List.append_nil] at hf
  subst hf
  obtain ⟨items', hx, he, hk⟩ := hk [] trivial
  rw [List.append_nil] at hk
  exact ⟨trees, front', xs', rfl, fun before hb => ⟨(hg before hb).1.raise top, hs before⟩,
    ⟨none, trivial⟩, fun _ _ => ⟨items', hx, he, front', ⟨_, _, (hg none trivial).1⟩, rfl, hk⟩⟩

/-- A semicolon, if there is one. -/
theorem semicolon (g : Growth) (top : Bool) (trees : List Tree) :
    Grown g top (Starts · trees) (fun trees' items' rest' => items' = [] ∧ skipSemicolon trees' = rest') trees []
    (skipSemicolon trees) := by
  obtain ⟨front, hcut, hs⟩ := skipSemicolon_cut trees
  refine ⟨front, mapAll g.move front, [], hcut, fun before hb => ⟨.still g top before front, ?_⟩,
    ⟨none, starts_none _⟩, fun rest' hr => ⟨[], rfl, rfl, rfl, ?_⟩⟩
  · intro _
    rcases hs with rfl | ⟨tree, rfl, hp⟩
    · rw [List.nil_append] at hcut
      rwa [lastOf, ← hcut]
    · exact starts_isPunct hp _
  · exact skipSemicolon_of_alike hcut (g.alike_mapAll front) (hr.mono (by omega))

/-- The trees inside braces, read as statements. -/
theorem insideBody (a b : Token)
    (h : Grown g true (Starts · trees) reading trees items [])
    (hfits : ∀ before, fits before → top = true ∨ opensBody before = true)
    (hex : ∃ before, fits before) :
    Grown g top fits (fun trees' items' rest' => ∃ a' b' inside',
      trees' = .group .brace a' b' inside' :: rest' ∧ reading inside' items' [])
      (.group .brace a b trees :: rest) items rest := by
  obtain ⟨front, front', xs', hf, hg, -, hk⟩ := h
  rw [List.append_nil] at hf
  subst hf
  obtain ⟨items', hx, he, hk⟩ := hk [] trivial
  rw [List.append_nil] at hk
  refine ⟨[.group .brace a b trees], [.group .brace (g.move a) (g.move b) front'], xs', rfl,
    fun before hb => ⟨?_, fun _ => starts_group _⟩, hex,
    fun _ _ => ⟨items', hx, he, _, _, front', rfl, hk⟩⟩
  simpa using Grows.body (hfits before hb) (hg none (starts_none _)).1
    (@Grows.nil g top (some (.group .brace a b trees)))

/-- One reading after another. -/
theorem seq {middle : List Tree} {ys zs : List Item} (h : Grown g top fits reading trees ys middle)
    (h' : Grown g top fits' reading' middle zs rest)
    (hfits : ∀ before front, trees = front ++ middle →
      (top = true → Starts (lastOf before front) middle) → fits' (lastOf before front)) :
    Grown g top fits (reading.then middle reading') trees (ys ++ zs) rest := by
  obtain ⟨c, c', us, rfl, hg, hex, hk⟩ := h
  obtain ⟨d, d', vs, rfl, hg', -, hk'⟩ := h'
  refine ⟨c ++ d, c' ++ d', us ++ vs, by simp, ?_, hex, ?_⟩
  · intro before hb
    obtain ⟨hg, hs⟩ := hg before hb
    obtain ⟨hg', hs'⟩ := hg' _ (hfits _ _ rfl hs)
    exact ⟨by simpa using hg.append hg', by rwa [lastOf_append]⟩
  · intro rest' hr
    obtain ⟨before, hb⟩ := hex
    obtain ⟨-, hs⟩ := hg before hb
    obtain ⟨hg', -⟩ := hg' _ (hfits _ _ rfl hs)
    have ha := hg'.ahead hr
    obtain ⟨zs', hz, hze, hk'⟩ := hk' _ hr
    obtain ⟨ys', hy, hye, hk⟩ := hk _ ha
    refine ⟨ys' ++ zs', by simp [hy, hz], by simp [hye, hze], d' ++ rest', ys', zs', rfl, ?_, ha, hk'⟩
    rwa [List.append_assoc]

/-- A reading that holds no statements after which anything can stand, and another one. -/
theorem andThen {middle : List Tree} {ys zs : List Item}
    (h : Grown g top fits reading trees ys middle) (h' : Grown g top Anywhere reading' middle zs rest) :
    Grown g top fits (reading.then middle reading') trees (ys ++ zs) rest :=
  h.seq h' fun _ _ _ _ => trivial

/-- A reading and a statement behind it. -/
theorem andStart {middle : List Tree} {ys zs : List Item}
    (h : Grown g true fits reading trees ys middle)
    (h' : Grown g true (Starts · middle) reading' middle zs rest) :
    Grown g true fits (reading.then middle reading') trees (ys ++ zs) rest :=
  h.seq h' fun _ _ _ hs => hs rfl

/-- From one reading to another, which may arrange the outline anew. -/
theorem imp {items₂ : List Item} (h : Grown g top fits reading trees items rest)
    (hs : Item.statementsAll items₂ = Item.statementsAll items)
    (hfits : ∀ before, fits' before → fits before) (hex : ∃ before, fits' before)
    (hk : ∀ trees' items' rest', Ahead 2 trees trees' → Ahead 2 rest rest' →
      Item.eraseAll items' = Item.eraseAll items → reading trees' items' rest' →
      ∃ out, Item.statementsAll out = Item.statementsAll items' ∧
        Item.eraseAll out = Item.eraseAll items₂ ∧ reading' trees' out rest') :
    Grown g top fits' reading' trees items₂ rest := by
  obtain ⟨c, c', us, rfl, hg, -, hr⟩ := h
  refine ⟨c, c', us, rfl, fun before hb => hs ▸ hg before (hfits before hb), hex, ?_⟩
  intro rest' ha
  obtain ⟨before, hb⟩ := hex
  obtain ⟨items', hx, he, hr⟩ := hr rest' ha
  obtain ⟨out, hx', he', hr⟩ := hk _ _ _ ((hg before (hfits before hb)).1.ahead ha) ha he hr
  exact ⟨out, hx'.trans hx, he', hr⟩

/-- From one reading to another of the same outline. -/
theorem imp_same (h : Grown g top fits reading trees items rest)
    (hfits : ∀ before, fits' before → fits before) (hex : ∃ before, fits' before)
    (hk : ∀ trees' items' rest', Ahead 2 trees trees' → Ahead 2 rest rest' →
      reading trees' items' rest' → reading' trees' items' rest') :
    Grown g top fits' reading' trees items rest :=
  h.imp rfl hfits hex fun trees' items' rest' ht hr he h =>
    ⟨items', rfl, he, hk trees' items' rest' ht hr h⟩

/-- A reading that also says that the outline stays the same but for trees. -/
theorem keep (h : Grown g top fits reading trees items rest) (hex : ∃ before, fits before) :
    Grown g top fits (fun trees' items' rest' => Item.eraseAll items' = Item.eraseAll items ∧
      reading trees' items' rest') trees items rest :=
  h.imp rfl (fun _ h => h) hex fun _ items' _ _ _ he h => ⟨items', rfl, he, he, h⟩

/-- What grows as a part of an expression also does so among statements. -/
theorem raised (h : Grown g false fits reading trees items rest)
    (hs : ∀ before front, trees = front ++ rest → Starts (lastOf before front) rest) :
    Grown g true fits reading trees items rest := by
  obtain ⟨c, c', us, rfl, hg, hr⟩ := h
  exact ⟨c, c', us, rfl, fun before hb => ⟨(hg before hb).1.lift, fun _ => hs _ _ rfl⟩, hr⟩

end Grown

/-- The reading of a job that its trees stand for. -/
def Job.Grown (g : Growth) (items : List Item) (rest : List Tree) : Job → Prop
  | .body trees => Outline.Grown g true (Starts · trees) (Reads <| .body ·) trees items rest
  | .statement trees =>
    Outline.Grown g true (Starts · trees) (Reads <| .statement ·) trees items rest
  | .block trees => Outline.Grown g true Anywhere (Reads <| .block ·) trees items rest
  | .handler trees => Outline.Grown g true Anywhere (Reads <| .handler ·) trees items rest
  | .cleanup trees =>
    Outline.Grown g true (Starts · trees) (Reads <| .cleanup ·) trees items rest
  | .switch trees => Outline.Grown g true Anywhere (Reads <| .switch ·) trees items rest
  | .cases trees => Outline.Grown g true (Starts · trees) (Reads <| .cases ·) trees items rest
  | .function declares trees =>
    Outline.Grown g false Anywhere (Reads <| .function declares ·) trees items rest
  | .classBody declares trees =>
    Outline.Grown g false Anywhere (Reads <| .classBody declares ·) trees items rest
  | .exported trees =>
    Outline.Grown g true (Starts · trees) (Reads <| .exported ·) trees items rest
  | .expression before trees =>
    Outline.Grown g false Anywhere (fun trees' items' rest' => ∀ before', Likens before before' →
      Reads (.expression before' trees') items' rest') trees items rest
  | .arrow before trees =>
    Outline.Grown g false (opensBody · = true) (fun trees' items' rest' =>
      ∀ before', Likens before before' → Reads (.arrow before' trees') items' rest')
      trees items rest

/-! ## Statements with heads and bodies -/

section Statements

variable {tree : Tree} {a b : Token} {head rest after last : List Tree}
  {test yes no inner items : List Item}

theorem grown_bodyCons {first : List Item} (ih₁ : (Job.statement (tree :: rest)).Grown g first after)
    (ih₂ : (Job.body after).Grown g items []) :
    (Job.body (tree :: rest)).Grown g (first ++ items) [] := by
  refine (Grown.andStart ih₁ ih₂).imp_same (fun _ h => h) ⟨none, starts_none _⟩ ?_
  rintro _ _ _ ht hr ⟨_, _, _, rfl, h₁, -, h₂⟩
  obtain ⟨tree', rest', rfl, -, -⟩ := ht.cons_inv
  obtain rfl := Ahead.nil_iff.mp hr
  exact .bodyCons h₁ h₂

theorem grown_empty (hf : Form.of tree rest = .empty) :
    (Job.statement (tree :: rest)).Grown g [] rest := by
  have h : Grown g true Anywhere _ (tree :: rest) [] rest :=
    Grown.tree fun _ => starts_of_form hf (by simp) (by simp) rest
  refine h.imp_same (fun _ _ => trivial) ⟨none, starts_none _⟩ ?_
  rintro _ _ _ ht - ⟨rfl, tree', -, rfl⟩
  exact .empty ((form_of_alike ht.1 ht.2).trans hf)

theorem grown_block (hf : Form.of tree rest = .block) (ih : (Job.block (tree :: rest)).Grown g items after) :
    (Job.statement (tree :: rest)).Grown g items after := by
  refine Grown.imp_same ih (fun _ _ => trivial) ⟨none, starts_none _⟩ ?_
  intro _ _ _ ht _ h
  obtain ⟨tree', rest', rfl, -, -⟩ := ht.cons_inv
  exact .block ((form_of_alike ht.1 ht.2).trans hf) h

theorem grown_ifElse {otherwise : List Tree}
    (hf : Form.of tree (.group .paren a b head :: rest) = .ifElse)
    (ih₁ : (Job.expression .nothing head).Grown g test [])
    (ih₂ : (Job.statement rest).Grown g yes after) (he : behindWord? "else" after = some otherwise)
    (ih₃ : (Job.statement otherwise).Grown g no last) :
    (Job.statement (tree :: .group .paren a b head :: rest)).Grown g (test ++ yes ++ no) last := by
  have h := (Grown.tree (fun _ => starts_of_form hf (by simp) (by simp) _)).andThen
    ((Grown.inside .paren a b ih₁).andStart (ih₂.andThen ((Grown.word he).andStart ih₃)))
  rw [show [] ++ (test ++ (yes ++ ([] ++ no))) = test ++ yes ++ no by simp] at h
  refine h.imp_same (fun _ _ => trivial) ⟨none, starts_none _⟩ ?_
  rintro _ _ _ ht - ⟨_, _, _, rfl, ⟨rfl, tree', -, rfl⟩, -, _, _, _, rfl,
    ⟨a', b', head', -, rfl, h₁⟩, -, _, _, _, rfl, h₂, -, _, _, _, rfl, ⟨rfl, hw⟩, -, h₃⟩
  simpa using Reads.ifElse ((form_of_alike ht.1 ht.2).trans hf) (h₁ _ (.refl _)) h₂ hw h₃

theorem grown_ifOnly (hf : Form.of tree (.group .paren a b head :: rest) = .ifElse)
    (ih₁ : (Job.expression .nothing head).Grown g test [])
    (ih₂ : (Job.statement rest).Grown g yes after) (he : behindWord? "else" after = none) :
    (Job.statement (tree :: .group .paren a b head :: rest)).Grown g (test ++ yes) after := by
  have h := (Grown.tree (fun _ => starts_of_form hf (by simp) (by simp) _)).andThen
    ((Grown.inside .paren a b ih₁).andStart ih₂)
  rw [List.nil_append] at h
  refine h.imp_same (fun _ _ => trivial) ⟨none, starts_none _⟩ ?_
  rintro _ _ _ ht hr ⟨_, _, _, rfl, ⟨rfl, tree', -, rfl⟩, -, _, _, _, rfl,
    ⟨a', b', head', -, rfl, h₁⟩, -, h₂⟩
  simpa using Reads.ifOnly ((form_of_alike ht.1 ht.2).trans hf) (h₁ _ (.refl _)) h₂
    (behindWord?_of_ahead_none hr he)

theorem grown_whileLoop (hf : Form.of tree (.group .paren a b head :: rest) = .whileLoop)
    (ih₁ : (Job.expression .nothing head).Grown g test [])
    (ih₂ : (Job.statement rest).Grown g inner after) :
    (Job.statement (tree :: .group .paren a b head :: rest)).Grown g (test ++ inner) after := by
  have h := (Grown.tree (fun _ => starts_of_form hf (by simp) (by simp) _)).andThen
    ((Grown.inside .paren a b ih₁).andStart ih₂)
  rw [List.nil_append] at h
  refine h.imp_same (fun _ _ => trivial) ⟨none, starts_none _⟩ ?_
  rintro _ _ _ ht - ⟨_, _, _, rfl, ⟨rfl, tree', -, rfl⟩, -, _, _, _, rfl,
    ⟨a', b', head', -, rfl, h₁⟩, -, h₂⟩
  simpa using Reads.whileLoop ((form_of_alike ht.1 ht.2).trans hf) (h₁ _ (.refl _)) h₂

theorem grown_doWhile (hf : Form.of tree rest = .doWhile)
    (ih₁ : (Job.statement rest).Grown g inner after)
    (hw : behindWord? "while" after = some (.group .paren a b head :: last))
    (ih₂ : (Job.expression .nothing head).Grown g test []) :
    (Job.statement (tree :: rest)).Grown g (inner ++ test) (skipSemicolon last) := by
  have h := (Grown.tree (fun _ => starts_of_form hf (by simp) (by simp) _)).andStart
    (ih₁.andThen ((Grown.word hw).andThen ((Grown.inside .paren a b ih₂).andStart (.semicolon g true _))))
  rw [show [] ++ (inner ++ ([] ++ (test ++ []))) = inner ++ test by simp] at h
  refine h.imp_same (fun _ _ => trivial) ⟨none, starts_none _⟩ ?_
  rintro _ _ _ ht - ⟨_, _, _, rfl, ⟨rfl, tree', -, rfl⟩, -, _, _, _, rfl, h₁, -, _, _, _, rfl,
    ⟨rfl, hw⟩, -, _, _, _, rfl, ⟨a', b', head', -, rfl, h₂⟩, -, rfl, rfl⟩
  simpa using Reads.doWhile ((form_of_alike ht.1 ht.2).trans hf) h₁ hw (h₂ _ (.refl _))

/-- A word that can stand at the front. -/
theorem Grown.skipWord (g : Growth) (word : String) (trees : List Tree) :
    Grown g true (Starts · trees) (fun trees' items' rest' => items' = [] ∧
      Tree.skipWord word trees' = rest') trees [] (Tree.skipWord word trees) := by
  unfold Tree.skipWord
  cases h : behindWord? word trees with
  | none =>
    refine Grown.stay.imp_same (fun _ hb => hb) ⟨none, starts_none _⟩ ?_
    rintro _ _ _ - hr ⟨rfl, rfl⟩
    exact ⟨rfl, by rw [behindWord?_of_ahead_none hr h]; rfl⟩
  | some rest =>
    refine (Grown.word h).imp_same (fun _ _ => trivial) ⟨none, starts_none _⟩ ?_
    rintro _ _ _ - - ⟨rfl, hw⟩
    exact ⟨rfl, by rw [hw]; rfl⟩

theorem grown_forLoop (hf : Form.of tree rest = .forLoop)
    (hs : skipWord "await" rest = .group .paren a b head :: after)
    (ih₁ : (Job.expression .nothing head).Grown g test [])
    (ih₂ : (Job.statement after).Grown g inner last) :
    (Job.statement (tree :: rest)).Grown g [.scope .block [] (loopNames head ++ test ++ inner)]
      last := by
  have hskip := Grown.skipWord g "await" rest
  rw [hs] at hskip
  have h := (Grown.tree (fun _ => starts_of_form hf (by simp) (by simp) _)).andStart
    (hskip.andThen ((Grown.inside .paren a b ih₁).andStart ih₂))
  refine h.imp (by simp) (fun _ _ => trivial) ⟨none, starts_none _⟩ ?_
  rintro _ _ _ ht - he ⟨_, _, _, rfl, ⟨rfl, tree', -, rfl⟩, -, _, _, _, rfl, ⟨rfl, hs⟩, -, _, ts, us,
    rfl, ⟨a', b', head', hh, rfl, h₁⟩, -, h₂⟩
  refine ⟨[.scope .block [] (loopNames head' ++ ts ++ us)], by simp, ?_,
    .forLoop ((form_of_alike ht.1 ht.2).trans hf) hs (h₁ _ (.refl _)) h₂⟩
  simpa [hh.loopNames_eq] using he

theorem grown_tryCatch {handler after' : List Tree} {tried caught lastly : List Item}
    (hf : Form.of tree rest = .tryCatch) (ih₁ : (Job.block rest).Grown g tried after)
    (hc : behindWord? "catch" after = some handler)
    (ih₂ : (Job.handler handler).Grown g caught after')
    (ih₃ : (Job.cleanup after').Grown g lastly last) :
    (Job.statement (tree :: rest)).Grown g (tried ++ caught ++ lastly) last := by
  have h := (Grown.tree (fun _ => starts_of_form hf (by simp) (by simp) _)).andThen
    (Grown.andThen ih₁ ((Grown.word hc).andThen (Grown.andStart ih₂ ih₃)))
  rw [show [] ++ (tried ++ ([] ++ (caught ++ lastly))) = tried ++ caught ++ lastly by simp] at h
  refine h.imp_same (fun _ _ => trivial) ⟨none, starts_none _⟩ ?_
  rintro _ _ _ ht - ⟨_, _, _, rfl, ⟨rfl, tree', -, rfl⟩, -, _, _, _, rfl, h₁, -, _, _, _, rfl,
    ⟨rfl, hc⟩, -, _, _, _, rfl, h₂, -, h₃⟩
  simpa using Reads.tryCatch ((form_of_alike ht.1 ht.2).trans hf) h₁ hc h₂ h₃

theorem grown_tryOnly {tried lastly : List Item} (hf : Form.of tree rest = .tryCatch)
    (ih₁ : (Job.block rest).Grown g tried after) (hc : behindWord? "catch" after = none)
    (ih₂ : (Job.cleanup after).Grown g lastly last) :
    (Job.statement (tree :: rest)).Grown g (tried ++ lastly) last := by
  have h := (Grown.tree (fun _ => starts_of_form hf (by simp) (by simp) _)).andThen
    (Grown.andStart ih₁ ih₂)
  rw [List.nil_append] at h
  refine h.imp_same (fun _ _ => trivial) ⟨none, starts_none _⟩ ?_
  rintro _ _ _ ht - ⟨_, _, _, rfl, ⟨rfl, tree', -, rfl⟩, -, _, _, _, rfl, h₁, hm, h₂⟩
  simpa using Reads.tryOnly ((form_of_alike ht.1 ht.2).trans hf) h₁
    (behindWord?_of_ahead_none hm hc) h₂

theorem grown_switchCases {block : List Item}
    (hf : Form.of tree (.group .paren a b head :: rest) = .switchCases)
    (ih₁ : (Job.expression .nothing head).Grown g test [])
    (ih₂ : (Job.switch rest).Grown g block after) :
    (Job.statement (tree :: .group .paren a b head :: rest)).Grown g (test ++ block) after := by
  have h := (Grown.tree (fun _ => starts_of_form hf (by simp) (by simp) _)).andThen
    ((Grown.inside .paren a b ih₁).andThen ih₂)
  rw [List.nil_append] at h
  refine h.imp_same (fun _ _ => trivial) ⟨none, starts_none _⟩ ?_
  rintro _ _ _ ht - ⟨_, _, _, rfl, ⟨rfl, tree', -, rfl⟩, -, _, _, _, rfl,
    ⟨a', b', head', -, rfl, h₁⟩, -, h₂⟩
  simpa using Reads.switchCases ((form_of_alike ht.1 ht.2).trans hf) (h₁ _ (.refl _)) h₂

/-- A statement that is a word before something else to read. -/
theorem grown_word {job : List Tree → Job} {form : Form} {fits : Option Tree → Prop}
    (hf : Form.of tree rest = form) (hs : ∀ last, Starts last rest → fits last)
    (hb : form ≠ .block) (he : form ≠ .expression)
    (ih : Grown g true fits (Reads <| job ·) rest items after)
    (rule : ∀ {tree rest items after}, Form.of tree rest = form → Reads (job rest) items after →
      Reads (.statement (tree :: rest)) items after) :
    (Job.statement (tree :: rest)).Grown g items after := by
  have h := (Grown.tree (fun _ => starts_of_form hf hb he _)).seq ih
    fun _ _ _ h => hs _ (h rfl)
  rw [List.nil_append] at h
  refine h.imp_same (fun _ _ => trivial) ⟨none, starts_none _⟩ ?_
  rintro _ _ _ ht - ⟨_, _, _, rfl, ⟨rfl, tree', -, rfl⟩, -, h⟩
  exact rule ((form_of_alike ht.1 ht.2).trans hf) h

/-- A statement that is two trees before something else to read. -/
theorem grown_words {job : List Tree → Job} {form : Form} {fits : Option Tree → Prop}
    (hf : Form.of tree rest = form)
    (hr : ∃ second more, rest = second :: more ∧ Starts (some second) more)
    (hfits : ∀ last, Starts last rest.tail → fits last) (hb : form ≠ .block)
    (he : form ≠ .expression) (ih : Grown g true fits (Reads <| job ·) rest.tail items after)
    (rule : ∀ {tree rest items after}, Form.of tree rest = form → Reads (job rest.tail) items after →
      Reads (.statement (tree :: rest)) items after) :
    (Job.statement (tree :: rest)).Grown g items after := by
  obtain ⟨second, more, rfl, hs⟩ := hr
  have h := (Grown.tree (fun _ => starts_of_form hf hb he _)).andThen
    ((Grown.tree (fun _ => hs)).seq ih fun _ _ _ h => hfits _ (h rfl))
  rw [List.nil_append, List.nil_append] at h
  refine h.imp_same (fun _ _ => trivial) ⟨none, starts_none _⟩ ?_
  rintro _ _ _ ht - ⟨_, _, _, rfl, ⟨rfl, tree', -, rfl⟩, -, _, _, _, rfl, ⟨rfl, second', -, rfl⟩,
    -, h⟩
  exact rule ((form_of_alike ht.1 ht.2).trans hf) h

/-- What stands behind the first word of an asynchronous function. -/
theorem form_asyncFunction (hf : Form.of tree rest = .asyncFunction) :
    ∃ second more, rest = second :: more ∧ Starts (some second) more := by
  have h := (form_rest hf).1 rfl
  cases rest with
  | nil => cases h
  | cons second more =>
    exact ⟨second, more, rfl, starts_isIdent (Bool.and_eq_true_iff.mp h).1 more⟩

/-- What stands behind a label. -/
theorem form_labelled (hf : Form.of tree rest = .labelled) :
    ∃ second more, rest = second :: more ∧ Starts (some second) more := by
  have h := (form_rest hf).2.1 rfl
  cases rest with
  | nil => cases h
  | cons second more => exact ⟨second, more, rfl, starts_isPunct h more⟩

/-- An expression up to its end, with a semicolon. -/
theorem Grown.cut {trees : List Tree}
    (ih : (Job.expression .nothing (takeExpression none trees).1).Grown g items []) :
    Grown g true Anywhere (fun trees' items' rest' =>
      skipSemicolon (takeExpression none trees').2 = rest' ∧
        Similar g (takeExpression none trees).1 (takeExpression none trees').1 ∧
        Reads (.expression .nothing (takeExpression none trees').1) items' [])
      trees items (skipSemicolon (takeExpression none trees).2) := by
  have hstarts : ∀ last, Starts last (takeExpression none trees).2 := by
    intro last first hfirst
    cases hr : (takeExpression none trees).2 with
    | nil => simp [hr] at hfirst
    | cons tree rest =>
      rw [hr] at hfirst
      cases hfirst
      rcases takeExpression_snd_cons hr with h | h
      · exact parted_isPunct h
      · exact .inr (.inl h)
  have h := (Grown.chunk ih fun _ _ => hstarts _).andStart (.semicolon g true _)
  rw [List.append_nil, takeExpression_append] at h
  refine h.imp_same (fun _ _ => trivial) ⟨none, trivial⟩ ?_
  rintro _ _ _ ht - ⟨after, _, _, rfl, ⟨chunk, hc, rfl, h₁⟩, hm, rfl, hs⟩
  obtain ⟨xs, xs', hg⟩ := hc
  rw [takeExpression_of_alike rfl hg.alike (hm.mono (by omega))]
  exact ⟨hs, ⟨xs, xs', hg⟩, by simpa using h₁ _ (.refl _)⟩

theorem grown_declaration {hoisted : Bool} {values : List Item}
    (hf : Form.of tree rest = .declaration hoisted)
    (ih : (Job.expression .nothing (takeExpression none rest).1).Grown g values []) :
    (Job.statement (tree :: rest)).Grown g
      ((parameterNames (takeExpression none rest).1).map (if hoisted then .hoist else .bind) ++ values)
      (skipSemicolon (takeExpression none rest).2) := by
  have h := (Grown.tree (fun _ => starts_of_form hf (by simp) (by simp) _)).andThen (Grown.cut ih)
  refine h.imp ?_ (fun _ _ => trivial) ⟨none, starts_none _⟩ ?_
  · cases hoisted <;> simp
  · rintro _ _ _ ht - he ⟨_, _, vs, rfl, ⟨rfl, tree', -, rfl⟩, -, rfl, hsim, hk⟩
    refine ⟨_, ?_, ?_, .declaration ((form_of_alike ht.1 ht.2).trans hf) hk⟩
    · cases hoisted <;> simp
    · rw [hsim.parameterNames_eq]
      simpa using he

theorem grown_leave {value : List Item} (hf : Form.of tree rest = .leave)
    (hn : startsWith (!·.newlineBefore) rest = true)
    (ih : (Job.expression .nothing (takeExpression none rest).1).Grown g value []) :
    (Job.statement (tree :: rest)).Grown g value (skipSemicolon (takeExpression none rest).2) := by
  have h := (Grown.tree (fun _ => starts_of_form hf (by simp) (by simp) _)).andThen (Grown.cut ih)
  rw [List.nil_append] at h
  refine h.imp_same (fun _ _ => trivial) ⟨none, starts_none _⟩ ?_
  rintro _ _ _ ht - ⟨_, _, vs, rfl, ⟨rfl, tree', -, rfl⟩, hm, rfl, -, hk⟩
  have hn' : startsWith (!·.newlineBefore) _ = true :=
    (startsWith_of_ahead (fun _ _ h => by rw [h.newlineBefore_eq]) hm).trans hn
  exact .leave ((form_of_alike ht.1 ht.2).trans hf) hn' hk

theorem grown_leaveBare (hf : Form.of tree rest = .leave)
    (hn : startsWith (!·.newlineBefore) rest = false) :
    (Job.statement (tree :: rest)).Grown g [] (skipSemicolon rest) := by
  have h := (Grown.tree (g := g) (fun _ => starts_of_form hf (by simp) (by simp) _)).andStart
    (.semicolon g true rest)
  rw [List.nil_append] at h
  refine h.imp_same (fun _ _ => trivial) ⟨none, starts_none _⟩ ?_
  rintro _ _ _ ht - ⟨_, _, _, rfl, ⟨rfl, tree', -, rfl⟩, hm, rfl, rfl⟩
  exact .leaveBare ((form_of_alike ht.1 ht.2).trans hf)
    ((startsWith_of_ahead (fun _ _ h => by rw [h.newlineBefore_eq]) hm).trans hn)

theorem grown_debugger (hf : Form.of tree rest = .debugger) :
    (Job.statement (tree :: rest)).Grown g [] (skipSemicolon rest) := by
  have h := (Grown.tree (g := g) (fun _ => starts_of_form hf (by simp) (by simp) _)).andStart
    (.semicolon g true rest)
  rw [List.nil_append] at h
  refine h.imp_same (fun _ _ => trivial) ⟨none, starts_none _⟩ ?_
  rintro _ _ _ ht - ⟨_, _, _, rfl, ⟨rfl, tree', -, rfl⟩, -, rfl, rfl⟩
  exact .debugger ((form_of_alike ht.1 ht.2).trans hf)

/-- The label behind a `break` or `continue`. -/
theorem Grown.label (g : Growth) (trees : List Tree) :
    Grown g true (Starts · trees) (fun trees' items' rest' => items' = [] ∧
      (if startsWith (fun t => !t.newlineBefore && isFreeName t) trees' then trees'.tail
        else trees') = rest') trees []
      (if startsWith (fun t => !t.newlineBefore && isFreeName t) trees then trees.tail
        else trees) := by
  have keep : ∀ {trees trees' : List Tree}, Ahead 2 trees trees' →
      startsWith (fun t => !t.newlineBefore && isFreeName t) trees' =
        startsWith (fun t => !t.newlineBefore && isFreeName t) trees :=
    fun h => startsWith_of_ahead (fun _ _ h => by rw [h.newlineBefore_eq, h.isFreeName_eq]) h
  split
  · rename_i hl
    cases trees with
    | nil => cases hl
    | cons label rest =>
      have hs : Starts (some label) rest := by
        simp only [startsWith, List.head?_cons, Option.map_some, Option.getD_some,
          Bool.and_eq_true, isFreeName] at hl
        cases hi : label.ident? with
        | none => simp [hi] at hl
        | some name => exact starts_isIdent (decide_eq_true hi) rest
      refine (Grown.tree fun _ => hs).imp_same (fun _ _ => trivial) ⟨none, starts_none _⟩ ?_
      rintro _ _ _ ht - ⟨rfl, label', -, rfl⟩
      exact ⟨rfl, by rw [if_pos ((keep ht).trans hl)]; rfl⟩
  · rename_i hl
    refine Grown.stay.imp_same (fun _ h => h) ⟨none, starts_none _⟩ ?_
    rintro _ _ _ ht - ⟨rfl, rfl⟩
    exact ⟨rfl, by rw [if_neg (by rwa [keep ht])]⟩

theorem grown_jump (hf : Form.of tree rest = .jump) :
    (Job.statement (tree :: rest)).Grown g []
      (skipSemicolon
        (if startsWith (fun t => !t.newlineBefore && isFreeName t) rest then rest.tail
          else rest)) := by
  have h := (Grown.tree (fun _ => starts_of_form hf (by simp) (by simp) _)).andStart
    ((Grown.label g rest).andStart (.semicolon g true _))
  rw [List.nil_append, List.nil_append] at h
  refine h.imp_same (fun _ _ => trivial) ⟨none, starts_none _⟩ ?_
  rintro _ _ _ ht - ⟨_, _, _, rfl, ⟨rfl, tree', -, rfl⟩, -, _, _, _, rfl, ⟨rfl, rfl⟩, -, rfl, rfl⟩
  exact .jump ((form_of_alike ht.1 ht.2).trans hf)

end Statements

/-! ## Import and export clauses -/

section Clauses

variable {tree : Tree} {trees rest after value : List Tree} {items : List Item}

/-- A clause up to its specifier, or to where it ends without one. -/
theorem Grown.clause {required : Bool} (h : clauseEnd required true trees = some after) :
    Grown g true Anywhere (fun trees' items' rest' => items' = [] ∧
      clauseEnd required true trees' = some rest') trees [] after := by
  obtain ⟨front, rfl, hend, hk⟩ := clauseEnd_cut h
  refine ⟨front, mapAll g.move front, [], rfl, fun before _ => ⟨.still g true before front, ?_⟩,
    ⟨none, trivial⟩, fun rest' hr => ⟨[], rfl, rfl, rfl, hk _ _ (g.alike_mapAll front)
      (hr.mono (by omega))⟩⟩
  intro _ tree ht
  rcases hend before tree ht with ⟨token, hl, hs⟩ | hp | hn
  · refine .inr (.inr fun token' h => ?_)
    rw [hl] at h
    cases h
    simp [hs]
  · exact parted_isPunct hp
  · exact .inr (.inl hn)

/-- The attributes of an import, if there are any. -/
theorem Grown.attributes (g : Growth) (trees : List Tree) :
    Grown g true (Starts · trees) (fun trees' items' rest' => items' = [] ∧
      skipAttributes trees' = rest') trees [] (skipAttributes trees) := by
  obtain ⟨front, hcut, hs, hk⟩ := skipAttributes_cut trees
  refine ⟨front, mapAll g.move front, [], hcut, fun before hb => ⟨.still g true before front, ?_⟩,
    ⟨none, starts_none _⟩, fun rest' hr => ⟨[], rfl, rfl, rfl, hk _ _ (g.alike_mapAll front) hr⟩⟩
  intro _
  rcases hs with rfl | ⟨word, opening, closing, inside, rfl⟩
  · rw [List.nil_append] at hcut
    rwa [lastOf, ← hcut]
  · exact starts_group _

/-- A clause with its attributes and its semicolon. -/
theorem Grown.wholeClause {required : Bool} (h : clauseEnd required true trees = some after) :
    Grown g true Anywhere (fun trees' items' rest' => items' = [] ∧ ∃ after',
      clauseEnd required true trees' = some after' ∧
        skipSemicolon (skipAttributes after') = rest') trees []
      (skipSemicolon (skipAttributes after)) := by
  have h := (Grown.clause h).andStart ((Grown.attributes g after).andStart (.semicolon g true _))
  rw [List.nil_append, List.nil_append] at h
  refine h.imp_same (fun _ _ => trivial) ⟨none, trivial⟩ ?_
  rintro _ _ _ - - ⟨_, _, _, rfl, ⟨rfl, hc⟩, -, _, _, _, rfl, ⟨rfl, rfl⟩, -, rfl, rfl⟩
  exact ⟨rfl, _, hc, rfl⟩

theorem grown_importClause (hf : Form.of tree rest = .importClause)
    (he : clauseEnd true true rest = some after) :
    (Job.statement (tree :: rest)).Grown g [] (skipSemicolon (skipAttributes after)) := by
  have h := (Grown.tree (g := g) (fun _ => starts_of_form hf (by simp) (by simp) _)).andThen
    (Grown.wholeClause he)
  rw [List.nil_append] at h
  refine h.imp_same (fun _ _ => trivial) ⟨none, starts_none _⟩ ?_
  rintro _ _ _ ht - ⟨_, _, _, rfl, ⟨rfl, tree', -, rfl⟩, -, rfl, after', hc, rfl⟩
  exact .importClause ((form_of_alike ht.1 ht.2).trans hf) hc

/-- Whether an export clause names what it exports. -/
abbrev exportsNames (trees : List Tree) : Bool :=
  startsWith (fun t => t.isPunct "*" || isGroup .brace t) trees

theorem exportsNames_of_ahead {trees trees' : List Tree} (h : Ahead 2 trees trees') :
    exportsNames trees' = exportsNames trees :=
  startsWith_of_ahead (fun _ _ h => by rw [h.isPunct_eq, h.isGroup_eq]) h

theorem grown_exportNames (hs : exportsNames trees = true)
    (he : clauseEnd false true trees = some after) :
    (Job.exported trees).Grown g [] (skipSemicolon (skipAttributes after)) := by
  refine (Grown.wholeClause he).imp_same (fun _ _ => trivial) ⟨none, starts_none _⟩ ?_
  rintro _ _ _ ht - ⟨rfl, after', hc, rfl⟩
  exact .exportNames ((exportsNames_of_ahead ht).trans hs) hc

theorem grown_exportStatement (hs : exportsNames trees = false)
    (hd : behindWord? "default" trees = none) (ih : (Job.statement trees).Grown g items after) :
    (Job.exported trees).Grown g items after := by
  refine Grown.imp_same ih (fun _ h => h) ⟨none, starts_none _⟩ ?_
  intro _ _ _ ht _ h
  exact .exportStatement ((exportsNames_of_ahead ht).trans hs) (behindWord?_of_ahead_none ht hd) h

theorem grown_exportFunction (hs : exportsNames trees = false)
    (hd : behindWord? "default" trees = some value) (hw : behindWord? "function" value = some rest)
    (ih : Grown g true Anywhere (Reads <| .function true ·) rest items after) :
    (Job.exported trees).Grown g items after := by
  have h := (Grown.word hd).andThen ((Grown.word hw).andThen ih)
  rw [List.nil_append, List.nil_append] at h
  refine h.imp_same (fun _ _ => trivial) ⟨none, starts_none _⟩ ?_
  rintro _ _ _ ht - ⟨_, _, _, rfl, ⟨rfl, hd⟩, -, _, _, _, rfl, ⟨rfl, hw⟩, -, h⟩
  exact .exportFunction ((exportsNames_of_ahead ht).trans hs) hd hw h

theorem behindWords?_of_ahead_none {first second : String} {trees trees' : List Tree}
    (h : Ahead 2 trees trees') (hw : behindWords? first second trees = none) :
    behindWords? first second trees' = none := by
  unfold behindWords? at hw ⊢
  cases hf : behindWord? first trees with
  | none => rw [behindWord?_of_ahead_none h hf]; rfl
  | some rest =>
    obtain ⟨tree, rfl, hi⟩ := behindWord?_eq_some hf
    obtain ⟨tree', rest', rfl, ht, hr⟩ := h.cons_inv
    rw [hf] at hw
    rw [behindWord?_cons (by rwa [ht.isIdent_eq])]
    exact behindWord?_of_ahead_none hr hw

theorem grown_exportAsync (hs : exportsNames trees = false)
    (hd : behindWord? "default" trees = some value) (hn : behindWord? "function" value = none)
    (hw : behindWords? "async" "function" value = some rest)
    (ih : Grown g true Anywhere (Reads <| .function true ·) rest items after) :
    (Job.exported trees).Grown g items after := by
  obtain ⟨middle, ha, hf⟩ := Option.bind_eq_some_iff.mp hw
  have h := (Grown.word hd).andThen ((Grown.word ha).andThen ((Grown.word hf).andThen ih))
  rw [List.nil_append, List.nil_append, List.nil_append] at h
  refine h.imp_same (fun _ _ => trivial) ⟨none, starts_none _⟩ ?_
  rintro _ _ _ ht - ⟨_, _, _, rfl, ⟨rfl, hd⟩, hv, _, _, _, rfl, ⟨rfl, ha⟩, -, _, _, _, rfl,
    ⟨rfl, hf⟩, -, h⟩
  exact .exportAsync ((exportsNames_of_ahead ht).trans hs) hd (behindWord?_of_ahead_none hv hn)
    (Option.bind_eq_some_iff.mpr ⟨_, ha, hf⟩) h

theorem grown_exportClass (hs : exportsNames trees = false)
    (hd : behindWord? "default" trees = some value) (hn : behindWord? "function" value = none)
    (ha : behindWords? "async" "function" value = none)
    (hw : behindWord? "class" value = some rest)
    (ih : Grown g true Anywhere (Reads <| .classBody true ·) rest items after) :
    (Job.exported trees).Grown g items after := by
  have h := (Grown.word hd).andThen ((Grown.word hw).andThen ih)
  rw [List.nil_append, List.nil_append] at h
  refine h.imp_same (fun _ _ => trivial) ⟨none, starts_none _⟩ ?_
  rintro _ _ _ ht - ⟨_, _, _, rfl, ⟨rfl, hd⟩, hv, _, _, _, rfl, ⟨rfl, hw⟩, -, h⟩
  exact .exportClass ((exportsNames_of_ahead ht).trans hs) hd (behindWord?_of_ahead_none hv hn)
    (behindWords?_of_ahead_none hv ha) hw h

theorem grown_exportValue (hs : exportsNames trees = false)
    (hd : behindWord? "default" trees = some value) (hn : behindWord? "function" value = none)
    (ha : behindWords? "async" "function" value = none) (hc : behindWord? "class" value = none)
    (ih : (Job.expression .nothing (takeExpression none value).1).Grown g items []) :
    (Job.exported trees).Grown g items (skipSemicolon (takeExpression none value).2) := by
  have h := (Grown.word hd).andThen (Grown.cut ih)
  rw [List.nil_append] at h
  refine h.imp_same (fun _ _ => trivial) ⟨none, starts_none _⟩ ?_
  rintro _ _ _ ht - ⟨_, _, _, rfl, ⟨rfl, hd⟩, hv, rfl, -, hk⟩
  exact .exportValue ((exportsNames_of_ahead ht).trans hs) hd (behindWord?_of_ahead_none hv hn)
    (behindWords?_of_ahead_none hv ha) (behindWord?_of_ahead_none hv hc) hk

end Clauses

/-! ## Blocks and the cases of a switch -/

section Blocks

variable {tree : Tree} {a b : Token} {trees rest after test inside : List Tree}
  {inner block items more first : List Item}

theorem grown_blockHere (ih : (Job.body inside).Grown g inner []) :
    (Job.block (.group .brace a b inside :: rest)).Grown g [.scope .block [] inner] rest := by
  refine (Grown.insideBody a b ih (fun _ _ => .inl rfl) ⟨none, trivial⟩).imp (by simp)
    (fun _ h => h) ⟨none, trivial⟩ ?_
  rintro _ items' _ - - he ⟨a', b', inside', rfl, h⟩
  exact ⟨[.scope .block [] items'], by simp, by simp [he], .blockHere h⟩

theorem grown_switch (ih : (Job.cases inside).Grown g inner []) :
    (Job.switch (.group .brace a b inside :: rest)).Grown g [.scope .block [] inner] rest := by
  refine (Grown.insideBody a b ih (fun _ _ => .inl rfl) ⟨none, trivial⟩).imp (by simp)
    (fun _ h => h) ⟨none, trivial⟩ ?_
  rintro _ items' _ - - he ⟨a', b', inside', rfl, h⟩
  exact ⟨[.scope .block [] items'], by simp, by simp [he], .switch h⟩

/-- The parameters of a handler, which are no expression. -/
theorem Grown.parameters (g : Growth) (a b : Token) (parameters rest : List Tree) :
    Grown g true Anywhere (fun trees' items' rest' => items' = [] ∧ ∃ a' b' parameters',
      Similar g parameters parameters' ∧ trees' = .group .paren a' b' parameters' :: rest')
      (.group .paren a b parameters :: rest) [] rest :=
  ⟨[.group .paren a b parameters], [(Tree.group .paren a b parameters).map g.move], [], rfl,
    fun before _ => ⟨.still_tree g true before _ .nil, fun _ => starts_group _⟩, ⟨none, trivial⟩,
    fun _ _ => ⟨[], rfl, rfl, rfl, _, _, mapAll g.move parameters,
      ⟨[], [], .still g false none parameters⟩, rfl⟩⟩

theorem grown_handlerNames {parameters : List Tree} (ih : (Job.block rest).Grown g block after) :
    (Job.handler (.group .paren a b parameters :: rest)).Grown g
      [.scope .block [] ((parameterNames parameters).map .bind ++ block)] after := by
  have h := (Grown.parameters g a b parameters rest).andThen ih
  refine h.imp (by simp) (fun _ h => h) ⟨none, trivial⟩ ?_
  rintro _ _ _ - - he ⟨_, _, block', rfl, ⟨rfl, a', b', parameters', hs, rfl⟩, -, h⟩
  refine ⟨[.scope .block [] ((parameterNames parameters').map .bind ++ block')], by simp, ?_,
    .handlerNames h⟩
  simpa [hs.parameterNames_eq] using he

theorem grown_handler (ih : (Job.block trees).Grown g block after) :
    (Job.handler trees).Grown g [.scope .block [] block] after := by
  refine Grown.imp ih (by simp) (fun _ h => h) ⟨none, trivial⟩ ?_
  intro _ block' _ _ _ he h
  exact ⟨[.scope .block [] block'], by simp, by simp [he], .handler h⟩

theorem grown_cleanup (hw : behindWord? "finally" trees = some rest)
    (ih : (Job.block rest).Grown g items after) : (Job.cleanup trees).Grown g items after := by
  refine ((Grown.word hw).andThen ih).imp_same (fun _ _ => trivial) ⟨none, starts_none _⟩ ?_
  rintro _ _ _ - - ⟨_, _, _, rfl, ⟨rfl, hw⟩, -, h⟩
  exact .cleanup hw h

theorem grown_cleanupNone (hw : behindWord? "finally" trees = none) :
    (Job.cleanup trees).Grown g [] trees := by
  refine Grown.stay.imp_same (fun _ h => h) ⟨none, starts_none _⟩ ?_
  rintro _ _ _ - hr ⟨rfl, rfl⟩
  exact .cleanupNone (behindWord?_of_ahead_none hr hw)

theorem grown_casesTest (hc : tree.isIdent "case" = true)
    (ht : takeCase 0 rest = some (test, after))
    (ih₁ : (Job.expression .nothing test).Grown g items [])
    (ih₂ : (Job.cases after).Grown g more []) :
    (Job.cases (tree :: rest)).Grown g (items ++ more) [] := by
  obtain ⟨colon, rfl, hp, hk⟩ := takeCase_cut ht
  have h := (Grown.tree fun _ => starts_isIdent hc _).andThen
    ((Grown.chunk ih₁ fun _ _ _ h => by cases h; exact parted_isPunct hp).andThen
      ((Grown.tree fun _ => starts_isPunct hp after).andStart ih₂))
  simp only [List.nil_append] at h
  refine h.imp_same (fun _ _ => trivial) ⟨none, starts_none _⟩ ?_
  rintro _ _ _ - hr ⟨_, _, _, rfl, ⟨rfl, tree', ha, rfl⟩, -, _, _, _, rfl,
    ⟨test', ⟨xs, xs', hg⟩, rfl, h₁⟩, -, _, _, _, rfl, ⟨rfl, colon', hcolon, rfl⟩, -, h₂⟩
  obtain rfl := Ahead.nil_iff.mp hr
  simpa using Reads.casesTest (by rwa [ha.isIdent_eq]) (hk _ _ _ hg.alike hcolon) (h₁ _ (.refl _)) h₂

theorem grown_casesDefault (hc : tree.isIdent "case" = false)
    (hd : (tree.isIdent "default" && startsWith (isPunct ":") rest) = true)
    (ih : (Job.cases rest.tail).Grown g items []) : (Job.cases (tree :: rest)).Grown g items [] := by
  obtain ⟨hw, hcolon⟩ := Bool.and_eq_true_iff.mp hd
  cases rest with
  | nil => cases hcolon
  | cons colon rest =>
    have h := (Grown.tree fun _ => starts_isIdent hw _).andThen
      ((Grown.tree fun _ => starts_isPunct hcolon rest).andStart ih)
    simp only [List.nil_append] at h
    refine h.imp_same (fun _ _ => trivial) ⟨none, starts_none _⟩ ?_
    rintro _ _ _ - hr ⟨_, _, _, rfl, ⟨rfl, tree', ha, rfl⟩, -, _, _, _, rfl, ⟨rfl, colon', hb, rfl⟩,
      -, h⟩
    obtain rfl := Ahead.nil_iff.mp hr
    refine .casesDefault (by rwa [ha.isIdent_eq]) ?_ h
    rw [ha.isIdent_eq, hw]
    exact (hb.isPunct_eq ":").trans hcolon

theorem grown_casesStatement (hc : tree.isIdent "case" = false)
    (hd : (tree.isIdent "default" && startsWith (isPunct ":") rest) = false)
    (ih₁ : (Job.statement (tree :: rest)).Grown g first after)
    (ih₂ : (Job.cases after).Grown g items []) :
    (Job.cases (tree :: rest)).Grown g (first ++ items) [] := by
  refine (Grown.andStart ih₁ ih₂).imp_same (fun _ h => h) ⟨none, starts_none _⟩ ?_
  rintro _ _ _ ht hr ⟨_, _, _, rfl, h₁, -, h₂⟩
  obtain ⟨tree', rest', rfl, ha, hm⟩ := ht.cons_inv
  obtain rfl := Ahead.nil_iff.mp hr
  refine .casesStatement (by rwa [ha.isIdent_eq]) ?_ h₁ h₂
  rwa [ha.isIdent_eq, startsWith_of_ahead (fun _ _ h => h.isPunct_eq ":") hm]

end Blocks

/-! ## Functions and classes -/

section Functions

variable {a b c d : Token} {trees rest after inside parameters : List Tree} {declares : Bool}
  {name : Option String} {defaults inner parent members items : List Item}

/-- The name of a function. -/
theorem Grown.functionName (h : functionName trees = (name, after)) :
    Grown g false Anywhere (fun trees' items' rest' => items' = [] ∧
      functionName trees' = (name, rest')) trees [] after := by
  obtain ⟨front, hcut, hk⟩ := functionName_cut trees
  rw [h] at hcut hk
  exact ⟨front, mapAll g.move front, [], hcut,
    fun before hb => ⟨.still g false before front, fun h => by cases h⟩, ⟨none, trivial⟩,
    fun rest' hr => ⟨[], rfl, rfl, rfl, hk _ _ (g.alike_mapAll front) hr⟩⟩

theorem grown_function
    (hn : functionName trees =
      (name, .group .paren a b parameters :: .group .brace c d inside :: rest))
    (ih₁ : (Job.expression .nothing parameters).Grown g defaults [])
    (ih₂ : (Job.body inside).Grown g inner []) :
    (Job.function declares trees).Grown g
      [.scope .function (if declares then bindName name else [])
        ((if declares then [] else bindName name) ++ (parameterNames parameters).map .bind ++
          defaults ++ inner)] rest := by
  have h := (Grown.functionName hn).andThen ((Grown.inside .paren a b ih₁).seq
    (Grown.insideBody c d ih₂ (fun _ h => .inr h) exists_opensBody) ?_)
  · refine h.imp (by cases declares <;> simp) (fun _ h => h) ⟨none, trivial⟩ ?_
    rintro _ _ _ - - he ⟨_, _, _, rfl, ⟨rfl, hn⟩, -, _, ts, us, rfl, ⟨a', b', parameters', hs, rfl, h₁⟩,
      -, c', d', inside', rfl, h₂⟩
    refine ⟨_, ?_, ?_, .function hn (h₁ _ (.refl _)) h₂⟩
    · cases declares <;> simp
    · simp only [List.nil_append, Item.eraseAll_append] at he
      cases declares <;> simp [hs.parameterNames_eq, he]
  · intro before front hf _
    have hf : [.group .paren a b parameters] ++ (.group .brace c d inside :: rest) =
        front ++ (.group .brace c d inside :: rest) := hf
    obtain rfl := List.append_cancel_right hf
    rfl

/-- A function ends with its body. -/
theorem Reads.function_ends (h : Reads (.function declares trees) items rest) :
    ∀ before front, trees = front ++ rest → Starts (lastOf before front) rest := by
  cases h with
  | @function _ _ name a b parameters c d inside _ _ _ hn =>
    intro before front hf
    obtain ⟨pre, hcut, -⟩ := functionName_cut trees
    rw [hn, hf] at hcut
    have hcut : front ++ rest =
        (pre ++ [.group .paren a b parameters, .group .brace c d inside]) ++ rest := by
      simpa using hcut
    rw [List.append_cancel_right hcut, lastOf_append]
    exact starts_group rest

/-- The name of a class. -/
theorem Grown.className (g : Growth) (trees : List Tree) :
    Grown g false Anywhere (fun trees' items' rest' => items' = [] ∧
      Outline.className trees' = ((Outline.className trees).1, rest')) trees []
      (Outline.className trees).2 := by
  obtain ⟨front, hcut, hk⟩ := className_cut trees
  exact ⟨front, mapAll g.move front, [], hcut,
    fun before hb => ⟨.still g false before front, fun h => by cases h⟩, ⟨none, trivial⟩,
    fun rest' hr => ⟨[], rfl, rfl, rfl, hk _ _ (g.alike_mapAll front) hr⟩⟩

/-- What stands between the name of a class and its body: what it extends. -/
theorem Grown.heritage {before : List Tree}
    (h : Reads (.expression .nothing (Outline.heritage before)) parent [])
    (ih : (Job.expression .nothing (Outline.heritage before)).Grown g parent []) :
    Grown g false Anywhere (fun trees' items' rest' => ∃ before', List.Forall₂ Alike before before' ∧
      trees' = before' ++ rest' ∧ Reads (.expression .nothing (Outline.heritage before')) items' [])
      (before ++ rest) parent rest := by
  unfold Outline.heritage at h ih ⊢
  cases hw : behindWord? "extends" before with
  | none =>
    rw [hw] at h
    cases h
    refine (Grown.still before fun _ h => by cases h).imp_same (fun _ h => h) ⟨none, trivial⟩ ?_
    rintro _ _ _ - - ⟨rfl, before', hb, rfl⟩
    refine ⟨before', hb, rfl, ?_⟩
    have ha := Ahead.append hb (show Ahead 1 [] [] from trivial)
    rw [List.append_nil, List.append_nil] at ha
    rw [behindWord?_of_ahead_none ha hw]
    exact .expressionNil
  | some value =>
    rw [hw] at ih
    obtain ⟨word, rfl, hi⟩ := behindWord?_eq_some hw
    have hword : Grown g false Anywhere _ (word :: (value ++ rest)) [] _ :=
      Grown.tree fun h => by cases h
    have h := hword.andThen (Grown.chunk ih fun _ h => by cases h)
    rw [List.nil_append] at h
    refine h.imp_same (fun _ h => h) ⟨none, trivial⟩ ?_
    rintro _ _ _ - - ⟨_, _, _, rfl, ⟨rfl, word', hword, rfl⟩, -, value', ⟨_, _, hg⟩, rfl, h⟩
    refine ⟨word' :: value', .cons hword hg.alike, rfl, ?_⟩
    rw [behindWord?_cons (by rwa [hword.isIdent_eq])]
    exact h _ (.refl _)

theorem grown_classBody {before : List Tree}
    (hc : cutAtBrace (className trees).2 = some (before, inside, rest))
    (h₁ : Reads (.expression .nothing (heritage before)) parent [])
    (ih₁ : (Job.expression .nothing (heritage before)).Grown g parent [])
    (ih₂ : (Job.expression .nothing inside).Grown g members []) :
    (Job.classBody declares trees).Grown g
      [.scope .block ((if declares then bindName (className trees).1 else []) ++ parent)
        ((if declares then [] else bindName (className trees).1) ++ members)] rest := by
  obtain ⟨a, b, hcut, hk⟩ := cutAtBrace_cut hc
  have h := Grown.className g trees
  rw [hcut] at h
  have h := h.andThen (((Grown.heritage h₁ ih₁).keep ⟨none, trivial⟩).andThen
    ((Grown.inside .brace a b ih₂).keep ⟨none, trivial⟩))
  refine h.imp (by cases declares <;> simp) (fun _ h => h) ⟨none, trivial⟩ ?_
  rintro _ _ _ - - - ⟨_, _, _, rfl, ⟨rfl, hn⟩, -, _, ts, us, rfl, ⟨he₁, before', hb, rfl, h₁⟩, -,
    he₂, a', b', inside', hs, rfl, h₂⟩
  have hrule : Reads (.classBody declares _) _ _ :=
    .classBody (by rw [hn]; exact hk _ _ _ _ _ hb) h₁ (h₂ _ (.refl _))
  rw [hn] at hrule
  refine ⟨_, ?_, ?_, hrule⟩
  · cases declares <;> simp
  · cases declares <;> simp [he₁, he₂]

/-- A class ends with its body. -/
theorem Reads.class_ends (h : Reads (.classBody declares trees) items rest) :
    ∀ before front, trees = front ++ rest → Starts (lastOf before front) rest := by
  cases h with
  | @classBody _ _ extended inside _ _ _ hc =>
    intro before front hf
    obtain ⟨pre, hcut, -⟩ := className_cut trees
    obtain ⟨a, b, hcut', -⟩ := cutAtBrace_cut hc
    rw [hcut', hf] at hcut
    have hcut : front ++ rest = (pre ++ (extended ++ [.group .brace a b inside])) ++ rest := by
      simpa using hcut
    rw [List.append_cancel_right hcut, lastOf_append, lastOf_append]
    exact starts_group rest

end Functions

/-! ## What is nested in expressions -/

section Expressions

variable {a b c d : Token} {before : Before} {token : Token} {trees rest after inside parameters : List Tree}
  {names : List String} {delimiter : Delimiter} {defaults inner f items : List Item}

theorem grown_method (ih₁ : (Job.expression .nothing parameters).Grown g defaults [])
    (ih₂ : (Job.body inside).Grown g inner []) (ih₃ : (Job.expression .other rest).Grown g items []) :
    (Job.expression before
      (.group .paren a b parameters :: .group .brace c d inside :: rest)).Grown g
      (.scope .function [] ((parameterNames parameters).map .bind ++ defaults ++ inner) :: items)
      [] := by
  have h := ((Grown.inside .paren a b ih₁).keep ⟨none, trivial⟩).seq
    (((Grown.insideBody c d ih₂ (fun _ h => .inr h) exists_opensBody).keep exists_opensBody).andThen
      ih₃) ?_
  · refine h.imp (by simp) (fun _ h => h) ⟨none, trivial⟩ ?_
    rintro _ _ _ - hr he ⟨_, ts, _, rfl, ⟨he₁, a', b', parameters', hs, rfl, h₁⟩, -, _, us, vs, rfl,
      ⟨he₂, c', d', inside', rfl, h₂⟩, -, h₃⟩
    obtain rfl := Ahead.nil_iff.mp hr
    refine ⟨.scope .function [] ((parameterNames parameters').map .bind ++ ts ++ us) :: vs,
      by simp, ?_, fun before' _ => .method (h₁ _ (.refl _)) h₂ (h₃ _ (.refl _))⟩
    simpa [hs.parameterNames_eq, he₁, he₂] using he
  · intro before front hf _
    have hf : [.group .paren a b parameters] ++ (.group .brace c d inside :: rest) =
        front ++ (.group .brace c d inside :: rest) := hf
    obtain rfl := List.append_cancel_right hf
    rfl

theorem grown_group (hn : delimiter = .paren → startsWith (isGroup .brace) rest = false)
    (ih₁ : (Job.expression .nothing inside).Grown g inner [])
    (ih₂ : (Job.expression (.of (.group delimiter a b inside)) rest).Grown g items []) :
    (Job.expression before (.group delimiter a b inside :: rest)).Grown g (inner ++ items) [] := by
  refine ((Grown.inside delimiter a b ih₁).andThen ih₂).imp_same (fun _ h => h) ⟨none, trivial⟩ ?_
  rintro _ _ _ - hr ⟨_, _, _, rfl, ⟨a', b', inside', hs, rfl, h₁⟩, hm, h₂⟩ before' -
  obtain rfl := Ahead.nil_iff.mp hr
  refine .group (fun hd => ?_) (h₁ _ (.refl _)) (h₂ _ (likens_group hs))
  rw [startsWith_of_ahead (fun _ _ h => h.isGroup_eq _) hm]
  exact hn hd

/-- A leaf that announces something to read, and what is behind that. -/
theorem grown_announced {kind : Inner} {fits : Option Tree → Prop} {reading : Reading}
    (hi : Inner.of before token rest = kind) (hfits : fits (some (.leaf token)))
    (ih₁ : Grown g false fits reading rest f after)
    (ih₂ : (Job.expression .other after).Grown g items [])
    (rule : ∀ {before' token rest after f items}, Likens before before' →
      Inner.of before' token rest = kind → reading rest f after →
      Reads (.expression .other after) items [] →
      Reads (.expression before' (.leaf token :: rest)) (f ++ items) []) :
    (Job.expression before (.leaf token :: rest)).Grown g (f ++ items) [] := by
  have htoken : Grown g false Anywhere _ (.leaf token :: rest) [] _ :=
    Grown.tree fun h => by cases h
  have h := htoken.seq (ih₁.andThen ih₂) ?_
  · refine h.imp_same (fun _ h => h) ⟨none, trivial⟩ ?_
    rintro _ _ _ - hr ⟨_, _, _, rfl, ⟨rfl, _, @⟨_, token', hk, ht, hl⟩, rfl⟩, hm, _, _, _, rfl, h₁, -,
      h₂⟩ before' hb
    obtain rfl := Ahead.nil_iff.mp hr
    have h := rule hb ((inner_of_alike hb.1 (.leaf hk ht hl) hm).trans hi) h₁ (h₂ _ (.refl _))
    exact h
  · intro before front hf _
    have hf : [.leaf token] ++ rest = front ++ rest := hf
    obtain rfl := List.append_cancel_right hf
    exact hfits

theorem grown_arrowInside (hi : Inner.of before token rest = .arrow)
    (ih₁ : (Job.arrow before rest).Grown g f after)
    (ih₂ : (Job.expression .other after).Grown g items []) :
    (Job.expression before (.leaf token :: rest)).Grown g (f ++ items) [] := by
  refine grown_announced hi ?_ ih₁ ih₂ fun hb hi h₁ h₂ => .arrowInside hi (h₁ _ hb) h₂
  unfold Inner.of at hi
  split at hi
  · split at hi
    · cases hi
    · split at hi
      · cases hi
      · split at hi
        · cases hi
        · split at hi <;> cases hi
  · split at hi
    · rename_i hp
      simp [opensBody, isPunct, hp]
    · cases hi

theorem opensBody_of_staticBlock (hi : Inner.of before token rest = .staticBlock) :
    opensBody (some (.leaf token)) = true := by
  unfold Inner.of at hi
  split at hi
  · rename_i hk
    split at hi
    · cases hi
    · split at hi
      · cases hi
      · split at hi
        · cases hi
        · split at hi
          · rename_i hs
            simp only [Bool.and_eq_true, decide_eq_true_eq] at hs
            simp [opensBody, isIdent, ident?, hk, hs.1]
          · cases hi
  · split at hi <;> cases hi

theorem grown_staticBlock (hi : Inner.of before token (.group .brace a b inside :: rest) = .staticBlock)
    (ih₁ : (Job.body inside).Grown g inner []) (ih₂ : (Job.expression .other rest).Grown g items []) :
    (Job.expression before (.leaf token :: .group .brace a b inside :: rest)).Grown g
      (.scope .function [] inner :: items) [] := by
  have hblock : Grown g false (opensBody · = true) (fun trees' items' rest' => ∃ a' b' inside' inner',
      trees' = .group .brace a' b' inside' :: rest' ∧ items' = [.scope .function [] inner'] ∧
        Reads (.body inside') inner' []) (.group .brace a b inside :: rest)
      [.scope .function [] inner] rest := by
    refine (Grown.insideBody a b ih₁ (fun _ h => .inr h) exists_opensBody).imp (by simp)
      (fun _ h => h) exists_opensBody ?_
    rintro _ items' _ - - he ⟨a', b', inside', rfl, h⟩
    exact ⟨[.scope .function [] items'], by simp, by simp [he], a', b', inside', items', rfl, rfl, h⟩
  refine grown_announced hi (opensBody_of_staticBlock hi) hblock ih₂ ?_
  rintro before' token rest after _ items' hb hi ⟨a', b', inside', inner', rfl, rfl, h₁⟩ h₂
  exact .staticBlock hi h₁ h₂

theorem grown_plain (hi : Inner.of before token rest = .plain)
    (ih : (Job.expression (.of (.leaf token)) rest).Grown g items []) :
    (Job.expression before (.leaf token :: rest)).Grown g items [] := by
  have htoken : Grown g false Anywhere _ (.leaf token :: rest) [] _ :=
    Grown.tree fun h => by cases h
  refine (htoken.andThen ih).imp_same (fun _ h => h) ⟨none, trivial⟩ ?_
  rintro _ _ _ - hr ⟨_, _, _, rfl, ⟨rfl, _, @⟨_, token', hk, ht, hl⟩, rfl⟩, hm, h⟩ before' hb
  obtain rfl := Ahead.nil_iff.mp hr
  exact .plain ((inner_of_alike hb.1 (.leaf hk ht hl) hm).trans hi)
    (h _ (likens_leaf (.leaf hk ht hl)))

theorem grown_arrowBlock (hn : before.arrowNames = some names)
    (ih : (Job.body inside).Grown g inner []) :
    (Job.arrow before (.group .brace a b inside :: rest)).Grown g
      [.scope .function [] (names.map .bind ++ inner)] rest := by
  refine (Grown.insideBody a b ih (fun _ h => .inr h) exists_opensBody).imp (by simp)
    (fun _ h => h) exists_opensBody ?_
  rintro _ items' _ - - he ⟨a', b', inside', rfl, h⟩
  exact ⟨[.scope .function [] (names.map .bind ++ items')], by simp, by simp [he],
    fun before' hb => .arrowBlock (hb.2.trans hn) h⟩

theorem grown_arrowValue {tree : Tree} (hn : before.arrowNames = some names)
    (hb : isGroup .brace tree = false)
    (ih : (Job.expression .nothing (takeArrowBody (tree :: rest)).1).Grown g inner []) :
    (Job.arrow before (tree :: rest)).Grown g
      [.scope .function [] (names.map .bind ++ inner)] (takeArrowBody (tree :: rest)).2 := by
  have hcut : (takeArrowBody (tree :: rest)).1 ++ (takeArrowBody (tree :: rest)).2 = tree :: rest :=
    List.takeWhile_append_dropWhile
  have h : Grown g false Anywhere _ (_ ++ (takeArrowBody (tree :: rest)).2) _ _ :=
    Grown.chunk ih fun _ h => by cases h
  rw [hcut] at h
  refine h.imp (by simp) (fun _ _ => trivial) exists_opensBody ?_
  rintro _ items' _ ht hr he ⟨chunk, ⟨xs, xs', hg⟩, rfl, h⟩
  refine ⟨[.scope .function [] (names.map .bind ++ items')], by simp, by simp [he], ?_⟩
  intro before' hb'
  have htake := takeArrowBody_of_alike hg.alike (hr.mono (by omega))
  obtain ⟨tree', rest', heq, ha, -⟩ := ht.cons_inv
  rw [heq] at htake ⊢
  have hrule : Reads (.arrow before' (tree' :: rest')) _ _ :=
    .arrowValue (hb'.2.trans hn) (by rwa [ha.isGroup_eq]) (by rw [htake]; exact h _ (.refl _))
  rwa [htake] at hrule

end Expressions

/-! ## Expression statements -/

section ExpressionStatements

variable {token : Token} {before : Before} {tree : Tree} {trees rest : List Tree} {items inner : List Item}

theorem inner_of_dot (h : token.isPunct "." = true) : Inner.of before token rest = .plain := by
  simp only [Token.isPunct, Bool.and_eq_true, decide_eq_true_eq] at h
  simp [Inner.of, Token.isPunct, h.1, h.2]

theorem inner_of_member {dot : Token} (hd : dot.isPunct "." = true) (hk : token.kind = .ident) :
    Inner.of (.of (.leaf dot)) token rest = .plain := by
  have : Before.of (.leaf dot) = .dot := by simp [Before.of, Tree.isDot, isPunct, hd]
  simp [Inner.of, this, Before.isDot, hk]

/-- The word that a call starts with announces nothing: else it were no expression statement. -/
theorem inner_of_head {dot : Token} (hk : token.kind = .ident) (hd : dot.isPunct "." = true)
    (hf : Form.of (.leaf token) (.leaf dot :: rest) = .expression) :
    Inner.of .nothing token (.leaf dot :: rest) = .plain := by
  simp only [Token.isPunct, Bool.and_eq_true, decide_eq_true_eq] at hd
  have hne : token.text ≠ "function" ∧ token.text ≠ "class" := by
    constructor <;>
    · intro ht
      simp [Form.of, isPunct, Token.isPunct, isGroup, inside?, ident?, hk, ht, Form.ofWord] at hf
  simp [Inner.of, Before.isDot, startsWith, isPunct, Token.isPunct, isGroup, inside?, hk, hd.1, hd.2,
    hne.1, hne.2]

/-- An empty group in parentheses behind another one adds nothing. -/
theorem Reads.group_extra {a b c d : Token} {inside : List Tree}
    (h : Reads (.expression before [.group .paren a b inside]) items []) :
    Reads (.expression before [.group .paren a b inside, .group .paren c d []]) items [] := by
  cases h with
  | group hn h₁ h₂ =>
    cases h₂
    exact .group (fun _ => rfl) h₁ (.group (fun _ => rfl) .expressionNil .expressionNil)

/-- An empty group in parentheses behind a call adds nothing. -/
theorem Reads.call_extra {name : String} (hc : CallOf name (tree :: trees))
    (hf : Form.of tree trees = .expression)
    (h : Reads (.expression .nothing (tree :: trees)) items []) (c d : Token) :
    Reads (.expression .nothing (tree :: (trees ++ [.group .paren c d []]))) items [] := by
  cases hc with
  | level hk ht hd hl =>
    have h := (h.inner (inner_of_head hk hd hf)).2
    have h := (h.inner (inner_of_dot hd)).2
    have h := (h.inner (inner_of_member hd hl)).2
    exact .plain (inner_of_head hk hd hf) (.plain (inner_of_dot hd) (.plain (inner_of_member hd hl)
      h.group_extra))
  | modifier hk ht hd hl hd' hm =>
    have h := (h.inner (inner_of_head hk hd hf)).2
    have h := (h.inner (inner_of_dot hd)).2
    have h := (h.inner (inner_of_member hd hl)).2
    have h := (h.inner (inner_of_dot hd')).2
    have h := (h.inner (inner_of_member hd' hm)).2
    exact .plain (inner_of_head hk hd hf) (.plain (inner_of_dot hd) (.plain (inner_of_member hd hl)
      (.plain (inner_of_dot hd') (.plain (inner_of_member hd' hm) h.group_extra))))

/-- A call grows inside its arguments only. -/
theorem Grows.call_inv {front : List Token} {a b : Token} {inside trees' : List Tree}
    {before : Option Tree} {xs xs' : List (List Tree)}
    (h : Grows g false before (front.map .leaf ++ [.group .paren a b inside]) trees' xs xs') :
    ∃ inside', trees' = (front.map g.move).map .leaf ++
        [.group .paren (g.move a) (g.move b) inside'] ∧
      Grows g false none inside inside' xs xs' := by
  induction front generalizing before trees' xs xs' with
  | nil =>
    cases h with
    | group hi h =>
      cases h
      rw [List.append_nil, List.append_nil]
      exact ⟨_, rfl, hi⟩
  | cons token front ih =>
    cases h with
    | leaf h =>
      obtain ⟨inside', rfl, hi⟩ := ih h
      exact ⟨inside', rfl, hi⟩

theorem Grows.callOf {name : String} {trees' : List Tree} {xs xs' : List (List Tree)}
    (h : Grows g false none trees trees' xs xs') (hc : CallOf name trees) : CallOf name trees' := by
  have dot : ∀ {token : Token}, token.isPunct "." = true → (g.move token).isPunct "." = true :=
    fun h => by rwa [Token.isPunct, g.move_kind, g.move_text]
  cases hc with
  | @level h₁ d l a b inside hk ht hd hl =>
    obtain ⟨inside', rfl, -⟩ := @Grows.call_inv _ [h₁, d, l] _ _ _ _ _ _ _ h
    exact .level (by rw [g.move_kind, hk]) (by rw [g.move_text, ht]) (dot hd) (by rw [g.move_kind, hl])
  | @modifier h₁ d l d' m a b inside hk ht hd hl hd' hm =>
    obtain ⟨inside', rfl, -⟩ := @Grows.call_inv _ [h₁, d, l, d', m] _ _ _ _ _ _ _ h
    exact .modifier (by rw [g.move_kind, hk]) (by rw [g.move_text, ht]) (dot hd)
      (by rw [g.move_kind, hl]) (dot hd') (by rw [g.move_kind, hm])

/-- The trees of an expression statement, with what grows behind them if they are a call. -/
theorem Grown.statement (hf : Form.of tree rest = .expression)
    (ih : (Job.expression .nothing (tree :: (takeExpression (some tree) rest).1)).Grown g inner []) :
    Grown g true (Starts · (tree :: rest)) (fun trees' items' rest' => ∃ tree' trees₁ inner',
      trees' = tree' :: trees₁ ∧ (takeExpression (some tree') trees₁).2 = rest' ∧
      items' = .statement (tree' :: (takeExpression (some tree') trees₁).1) :: inner' ∧
      Reads (.expression .nothing (tree' :: (takeExpression (some tree') trees₁).1)) inner' [])
      (tree :: rest) (.statement (tree :: (takeExpression (some tree) rest).1) :: inner)
      (takeExpression (some tree) rest).2 := by
  have hstarts : ∀ last, Starts last (takeExpression (some tree) rest).2 := by
    intro last first hfirst
    cases hr : (takeExpression (some tree) rest).2 with
    | nil => simp [hr] at hfirst
    | cons tree rest =>
      rw [hr] at hfirst
      cases hfirst
      rcases takeExpression_snd_cons hr with h | h
      · exact parted_isPunct h
      · exact .inr (.inl h)
  have hcut := takeExpression_append (some tree) rest
  have htake : ∀ {tree' : Tree} {front : List Tree} (rest' : List Tree), Alike tree tree' →
      List.Forall₂ Alike (takeExpression (some tree) rest).1 front →
      takeExpression (some tree') (front ++ rest') =
        (front ++ (takeExpression (lastOf (some tree') front) rest').1,
          (takeExpression (lastOf (some tree') front) rest').2) :=
    fun rest' ht hs =>
      takeExpression_append_of_alike (by simp [EndsAlike, ht.endsExpression_eq]) hs rest'
  have hstop : ∀ {last : Option Tree} {rest' : List Tree},
      EndsAlike (lastOf (some tree) (takeExpression (some tree) rest).1) last →
      Ahead 2 (takeExpression (some tree) rest).2 rest' → takeExpression last rest' = ([], rest') :=
    fun h ha => takeExpression_stops h (ha.mono (by omega))
  obtain ⟨front, front', xs', hc, hg, -, hk⟩ := ih
  rw [List.append_nil] at hc
  subst hc
  obtain ⟨hg, -⟩ := hg none trivial
  obtain ⟨inner', hx, he, hk⟩ := hk [] trivial
  rw [List.append_nil] at hk
  obtain ⟨tree', chunk', rfl, ht, hs⟩ : ∃ tree' chunk', front' = tree' :: chunk' ∧ Alike tree tree' ∧
      List.Forall₂ Alike (takeExpression (some tree) rest).1 chunk' := by
    cases hg.alike with
    | cons ht hs => exact ⟨_, _, rfl, ht, hs⟩
  cases hchosen : g.chosen (tree :: (takeExpression (some tree) rest).1) with
  | false =>
    refine ⟨tree :: ((takeExpression (some tree) rest).1 ++ []), (tree' :: chunk') ++ [],
      (tree' :: chunk') :: (xs' ++ []), by simp [hcut], fun before hb => ⟨?_, fun _ => ?_⟩,
      ⟨none, starts_none _⟩, fun rest' ha => ?_⟩
    · simpa using Grows.statement (hb _ rfl) hchosen hg .nil
    · exact hstarts _
    · have hend : EndsAlike (lastOf (some tree) (takeExpression (some tree) rest).1)
          (lastOf (some tree') chunk') :=
        EndsAlike.lastOf (by simp [EndsAlike, ht.endsExpression_eq]) hs
      have htake := htake rest' ht hs
      rw [hstop hend ha] at htake
      refine ⟨.statement (tree' :: chunk') :: inner', by simp [hx], by simp [he], tree',
        chunk' ++ rest', inner', by simp, ?_⟩
      rw [htake]
      exact ⟨rfl, by simp, by simpa using hk _ (.refl _)⟩
  | true =>
    obtain ⟨name, hcall⟩ := g.chosen_call _ hchosen
    have hcall' := hg.callOf hcall
    obtain ⟨front, a, b, inside, hsplit, hlen⟩ := hcall.split
    rw [hsplit] at hg hchosen
    obtain ⟨inside', hfront', hi⟩ := hg.call_inv
    have hlast : lastOf (some tree) (takeExpression (some tree) rest).1 =
        some (.group .paren a b inside) := by
      rw [show lastOf (some tree) (takeExpression (some tree) rest).1 =
        lastOf none (tree :: (takeExpression (some tree) rest).1) from rfl, hsplit, lastOf_append]
      rfl
    have hends : EndsAlike (some (.group .paren a b inside)) (some (g.extra b)) := rfl
    refine ⟨tree :: (takeExpression (some tree) rest).1, tree' :: (chunk' ++ [g.extra b]),
      (tree' :: (chunk' ++ [g.extra b])) :: xs', by rw [List.cons_append, hcut],
      fun before hb => ⟨?_, fun _ => hstarts _⟩, ⟨none, starts_none _⟩, fun rest' ha => ?_⟩
    · have hfirst : Starts before (front.map .leaf) := by
        cases front with
        | nil => exact starts_nil _
        | cons first front =>
          obtain ⟨rfl, -⟩ := List.cons.inj hsplit
          intro t ht
          exact hb t ht
      have h := Grows.call hfirst hchosen hi (@Grows.nil g true _)
      have he : tree' :: (chunk' ++ [g.extra b]) = (front.map g.move).map .leaf ++
          [.group .paren (g.move a) (g.move b) inside', g.extra b] := by
        rw [← List.cons_append, hfront']
        simp
      rw [he, Item.statementsAll_cons, Item.statements_statement, hsplit]
      simpa using h
    · have htake := htake (g.extra b :: rest') ht hs
      have hend : EndsAlike (lastOf (some tree) (takeExpression (some tree) rest).1)
          (lastOf (some tree') chunk') :=
        EndsAlike.lastOf (by simp [EndsAlike, ht.endsExpression_eq]) hs
      have hextra : takeExpression (lastOf (some tree') chunk') (g.extra b :: rest') =
          ([g.extra b], rest') := by
        rw [takeExpression, if_neg, hstop (hlast ▸ hends) ha]
        cases lastOf (some tree') chunk' <;>
          simp [breaksBefore, Growth.extra, isPunct, newlineBefore, g.opening_newlineBefore]
      rw [hextra] at htake
      have hform : Form.of tree' chunk' = .expression := by
        have hne : (takeExpression (some tree) rest).1 ≠ [] := by
          intro h
          rw [h] at hsplit
          have := congrArg List.length hsplit
          simp only [List.length_cons, List.length_nil, List.length_append, List.length_map] at this
          omega
        have hahead := Ahead.of_alike hs hne (takeExpression (some tree) rest).2
        rw [hcut] at hahead
        exact (form_of_alike ht hahead).trans hf
      refine ⟨.statement (tree' :: (chunk' ++ [g.extra b])) :: inner', by simp [hx], by simp [he],
        tree', chunk' ++ g.extra b :: rest', inner', by simp, ?_⟩
      rw [htake]
      exact ⟨rfl, rfl, (hk _ (.refl _)).call_extra hcall' hform _ _⟩

theorem grown_expressionStatement (hf : Form.of tree rest = .expression)
    (ih : (Job.expression .nothing (tree :: (takeExpression (some tree) rest).1)).Grown g inner []) :
    (Job.statement (tree :: rest)).Grown g
      (.statement (tree :: (takeExpression (some tree) rest).1) :: inner)
      (skipSemicolon (takeExpression (some tree) rest).2) := by
  have h := (Grown.statement hf ih).andStart (.semicolon g true _)
  rw [List.append_nil] at h
  refine h.imp_same (fun _ h => h) ⟨none, starts_none _⟩ ?_
  rintro _ _ _ ht - ⟨_, _, _, rfl, ⟨tree', rest', inner', rfl, rfl, rfl, hk⟩, -, rfl, rfl⟩
  rw [List.append_nil]
  exact .expressionStatement ((form_of_alike ht.1 ht.2).trans hf) hk

end ExpressionStatements

/-! ## Every derivation grows -/

/-- **Whatever was read is read again when it has grown.** -/
theorem Reads.grown (g : Growth) {job : Job} {items : List Item} {rest : List Tree}
    (h : Reads job items rest) : job.Grown g items rest := by
  induction h with
  | bodyNil => exact Grown.nil .bodyNil ⟨none, starts_none _⟩
  | bodyCons _ _ ih₁ ih₂ => exact grown_bodyCons ih₁ ih₂
  | empty hf => exact grown_empty hf
  | block hf _ ih => exact grown_block hf ih
  | ifElse hf _ _ he _ ih₁ ih₂ ih₃ => exact grown_ifElse hf ih₁ ih₂ he ih₃
  | ifOnly hf _ _ he ih₁ ih₂ => exact grown_ifOnly hf ih₁ ih₂ he
  | whileLoop hf _ _ ih₁ ih₂ => exact grown_whileLoop hf ih₁ ih₂
  | doWhile hf _ hw _ ih₁ ih₂ => exact grown_doWhile hf ih₁ hw ih₂
  | forLoop hf hs _ _ ih₁ ih₂ => exact grown_forLoop hf hs ih₁ ih₂
  | tryCatch hf _ hc _ _ ih₁ ih₂ ih₃ => exact grown_tryCatch hf ih₁ hc ih₂ ih₃
  | tryOnly hf _ hc _ ih₁ ih₂ => exact grown_tryOnly hf ih₁ hc ih₂
  | switchCases hf _ _ ih₁ ih₂ => exact grown_switchCases hf ih₁ ih₂
  | functionDeclaration hf h ih =>
    exact grown_word hf (fun _ _ => trivial) (by simp) (by simp) (Grown.raised ih h.function_ends)
      .functionDeclaration
  | asyncFunction hf h ih =>
    exact grown_words hf (form_asyncFunction hf) (fun _ _ => trivial) (by simp) (by simp)
      (Grown.raised ih h.function_ends) .asyncFunction
  | classDeclaration hf h ih =>
    exact grown_word hf (fun _ _ => trivial) (by simp) (by simp) (Grown.raised ih h.class_ends)
      .classDeclaration
  | declaration hf _ ih => exact grown_declaration hf ih
  | leave hf hn _ ih => exact grown_leave hf hn ih
  | leaveBare hf hn => exact grown_leaveBare hf hn
  | jump hf => exact grown_jump hf
  | debugger hf => exact grown_debugger hf
  | importClause hf he => exact grown_importClause hf he
  | exportClause hf _ ih =>
    exact grown_word hf (fun _ h => h) (by simp) (by simp) ih .exportClause
  | labelled hf _ ih =>
    exact grown_words hf (form_labelled hf) (fun _ h => h) (by simp) (by simp) ih .labelled
  | expressionStatement hf _ ih => exact grown_expressionStatement hf ih
  | blockHere _ ih => exact grown_blockHere ih
  | handlerNames _ ih => exact grown_handlerNames ih
  | handler _ ih => exact grown_handler ih
  | cleanup hw _ ih => exact grown_cleanup hw ih
  | cleanupNone hw => exact grown_cleanupNone hw
  | switch _ ih => exact grown_switch ih
  | casesNil => exact Grown.nil .casesNil ⟨none, starts_none _⟩
  | casesTest hc ht _ _ ih₁ ih₂ => exact grown_casesTest hc ht ih₁ ih₂
  | casesDefault hc hd _ ih => exact grown_casesDefault hc hd ih
  | casesStatement hc hd _ _ ih₁ ih₂ => exact grown_casesStatement hc hd ih₁ ih₂
  | function hn _ _ ih₁ ih₂ => exact grown_function hn ih₁ ih₂
  | classBody hc h _ ih₁ ih₂ => exact grown_classBody hc h ih₁ ih₂
  | exportNames hs he => exact grown_exportNames hs he
  | exportStatement hs hd _ ih => exact grown_exportStatement hs hd ih
  | exportFunction hs hd hw h ih =>
    exact grown_exportFunction hs hd hw (Grown.raised ih h.function_ends)
  | exportAsync hs hd hn hw h ih =>
    exact grown_exportAsync hs hd hn hw (Grown.raised ih h.function_ends)
  | exportClass hs hd hn ha hw h ih =>
    exact grown_exportClass hs hd hn ha hw (Grown.raised ih h.class_ends)
  | exportValue hs hd hn ha hc _ ih => exact grown_exportValue hs hd hn ha hc ih
  | expressionNil => exact Grown.nil (fun _ _ => .expressionNil) ⟨none, trivial⟩
  | method _ _ _ ih₁ ih₂ ih₃ => exact grown_method ih₁ ih₂ ih₃
  | group hn _ _ ih₁ ih₂ => exact grown_group hn ih₁ ih₂
  | functionInside hi _ _ ih₁ ih₂ =>
    exact grown_announced hi trivial ih₁ ih₂ fun _ hi h₁ h₂ => .functionInside hi h₁ h₂
  | classInside hi _ _ ih₁ ih₂ =>
    exact grown_announced hi trivial ih₁ ih₂ fun _ hi h₁ h₂ => .classInside hi h₁ h₂
  | staticBlock hi _ _ ih₁ ih₂ => exact grown_staticBlock hi ih₁ ih₂
  | arrowInside hi _ _ ih₁ ih₂ => exact grown_arrowInside hi ih₁ ih₂
  | plain hi _ ih => exact grown_plain hi ih
  | arrowBlock hn _ ih => exact grown_arrowBlock hn ih
  | arrowValue hn hb _ ih => exact grown_arrowValue hn hb ih

/-- **The body of a program is read again when it has grown**, as the same outline with its
statements grown. -/
theorem body_grows (g : Growth) {trees : List Tree} {items : List Item} (h : body trees = .ok items) :
    ∃ trees' items', Grows g true none trees trees' (Item.statementsAll items)
        (Item.statementsAll items') ∧
      Item.eraseAll items' = Item.eraseAll items ∧ body trees' = .ok items' := by
  obtain ⟨front, front', xs', hfront, hgrows, -, hagain⟩ := ((body_eq_ok_iff.mp h).grown g).grows
  rw [List.append_nil] at hfront
  subst hfront
  obtain ⟨items', hxs, herase, hreads⟩ := hagain [] (by simp [Ahead])
  rw [List.append_nil] at hreads
  exact ⟨front', items', hxs ▸ (hgrows none (starts_none _)).1, herase, body_eq_ok_iff.mpr hreads⟩

end Outline

end DeferredLog
