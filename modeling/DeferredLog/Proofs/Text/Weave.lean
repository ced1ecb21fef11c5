import DeferredLog.Text.Size

/-!
# Texts with insertions

A text with a piece inserted at each offset, as a function of the offset (`weave`), and the relation
between a text and one with `()` inserted behind closing parentheses (`Woven`), which is all that a
reader of the text can see of it.

* `weave_append`: a part of a text without insertions inside stays as it is.
* `weave_cut`: a text that is cut anywhere.
* `Woven.isPrefixOf_eq`: what holds no closing parenthesis is found at the front of both or neither.
-/

namespace DeferredLog.Text

/-- The text that starts at an offset, with a piece inserted at each offset. -/
def weave (piece : Nat → List Char) (offset : Nat) : List Char → List Char
  | [] => piece offset
  | c :: cs => piece offset ++ c :: weave piece (offset + c.utf8Size) cs

/-- The same without the piece at the start. -/
def weaveRest (piece : Nat → List Char) (offset : Nat) : List Char → List Char
  | [] => []
  | c :: cs => c :: weave piece (offset + c.utf8Size) cs

variable {piece : Nat → List Char} {offset : Nat}

theorem weave_eq (piece : Nat → List Char) (offset : Nat) (cs : List Char) :
    weave piece offset cs = piece offset ++ weaveRest piece offset cs := by
  cases cs <;> simp [weave, weaveRest]

/-- Only the pieces behind the start matter to the rest, and how far behind. -/
theorem weaveRest_elsewhere {piece' : Nat → List Char} {offset' : Nat} {cs : List Char}
    (h : ∀ n, 0 < n → n ≤ size cs → piece' (offset' + n) = piece (offset + n)) :
    weaveRest piece' offset' cs = weaveRest piece offset cs := by
  induction cs generalizing offset offset' with
  | nil => rfl
  | cons c cs ih =>
    have hc := c.utf8Size_pos
    rw [size_cons] at h
    have hrest : weaveRest piece' (offset' + c.utf8Size) cs = weaveRest piece (offset + c.utf8Size) cs :=
      ih fun n hn hle => by
        rw [Nat.add_assoc, Nat.add_assoc]
        exact h _ (by omega) (by omega)
    rw [weaveRest, weaveRest, weave_eq, weave_eq, h _ hc (by omega), hrest]

theorem weaveRest_congr {piece' : Nat → List Char} {cs : List Char}
    (h : ∀ o, offset < o → piece' o = piece o) :
    weaveRest piece' offset cs = weaveRest piece offset cs :=
  weaveRest_elsewhere fun _ hn _ => h _ (Nat.lt_add_of_pos_right hn)

/-- A text is cut anywhere. The piece at the cut goes to the first part. -/
theorem weave_cut (a b : List Char) :
    weave piece offset (a ++ b) = weave piece offset a ++ weaveRest piece (offset + size a) b := by
  induction a generalizing offset with
  | nil => rw [List.nil_append, weave_eq]; rfl
  | cons c a ih => simp [weave, ih, Nat.add_assoc]

/-- A part of a text without insertions inside stays as it is. -/
theorem weaveRest_append {a : List Char} (ha : a ≠ []) (b : List Char)
    (h : ∀ o, offset < o → o < offset + size a → piece o = []) :
    weaveRest piece offset (a ++ b) =
      a ++ (piece (offset + size a) ++ weaveRest piece (offset + size a) b) := by
  induction a generalizing offset with
  | nil => exact absurd rfl ha
  | cons c a ih =>
    have hc := c.utf8Size_pos
    rw [List.cons_append, weaveRest, size_cons, weave_eq]
    cases a with
    | nil => simp
    | cons d a =>
      have hd := d.utf8Size_pos
      have hlt : offset + c.utf8Size < offset + (c.utf8Size + size (d :: a)) := by
        rw [size_cons]
        omega
      rw [h (offset + c.utf8Size) (by omega) hlt, ih (by simp) fun o h₁ h₂ =>
        h o (by omega) (by rw [size_cons]; omega), Nat.add_assoc]
      simp

theorem weave_append {a : List Char} (b : List Char)
    (h : ∀ o, offset ≤ o → o < offset + size a → piece o = []) :
    weave piece offset (a ++ b) = a ++ weave piece (offset + size a) b := by
  cases a with
  | nil => simp
  | cons c a =>
    have hc := c.utf8Size_pos
    rw [weave_eq, weaveRest_append (by simp) b fun o h₁ h₂ => h o (by omega) h₂,
      h offset (by omega) (by rw [size_cons]; omega), ← weave_eq]
    simp

/-- A part of a text without insertions inside or at its end stays as it is. -/
theorem weaveRest_past {a : List Char} (b : List Char)
    (h : ∀ o, offset < o → o ≤ offset + size a → piece o = []) :
    weaveRest piece offset (a ++ b) = a ++ weaveRest piece (offset + size a) b := by
  cases a with
  | nil => simp
  | cons c a =>
    have hc := c.utf8Size_pos
    rw [weaveRest_append (List.cons_ne_nil _ _) b fun o h₁ h₂ => h o h₁ (Nat.le_of_lt h₂),
      h _ (by rw [size_cons]; omega) (Nat.le_refl _), List.nil_append]

/-- A text without insertions stays as it is. -/
theorem weaveRest_eq_self {cs : List Char}
    (h : ∀ o, offset < o → o ≤ offset + size cs → piece o = []) :
    weaveRest piece offset cs = cs := by
  cases cs with
  | nil => rfl
  | cons c cs =>
    have hc := c.utf8Size_pos
    have hne : c :: cs ≠ [] := by simp
    have := weaveRest_append hne [] fun o h₁ h₂ => h o h₁ (Nat.le_of_lt h₂)
    rw [List.append_nil] at this
    rw [this, h _ (by rw [size_cons]; omega) (Nat.le_refl _)]
    simp [weaveRest]

theorem weave_eq_self {cs : List Char} (h : ∀ o, offset ≤ o → o ≤ offset + size cs → piece o = []) :
    weave piece offset cs = cs := by
  rw [weave_eq, h offset (Nat.le_refl _) (Nat.le_add_right ..), List.nil_append,
    weaveRest_eq_self fun o h₁ h₂ => h o (Nat.le_of_lt h₁) h₂]

/-- The characters of a text stay in their order. -/
theorem sublist_weave (piece : Nat → List Char) (offset : Nat) (cs : List Char) :
    cs.Sublist (weave piece offset cs) := by
  induction cs generalizing offset with
  | nil => exact List.nil_sublist _
  | cons c cs ih => exact ((ih _).cons_cons c).trans (List.sublist_append_right ..)

/-! ## Insertions behind closing parentheses -/

/-- A text, and the same with `()` inserted behind closing parentheses. -/
inductive Woven : List Char → List Char → Prop
  | nil : Woven [] []
  | cons {c cs cs'} : Woven cs cs' → Woven (c :: cs) (c :: cs')
  | insert {cs cs'} : Woven cs cs' → Woven (')' :: cs) (')' :: '(' :: ')' :: cs')

namespace Woven

variable {cs cs' : List Char}

theorem append (a : List Char) (h : Woven cs cs') : Woven (a ++ cs) (a ++ cs') := by
  induction a with
  | nil => exact h
  | cons c a ih => exact .cons ih

theorem refl (cs : List Char) : Woven cs cs := by
  simpa using append cs .nil

theorem head?_eq (h : Woven cs cs') : cs'.head? = cs.head? := by
  cases h <;> rfl

theorem behind {word : List Char} (hw : ')' ∉ word) (h : Woven (word ++ cs) cs') :
    ∃ rest, cs' = word ++ rest ∧ Woven cs rest := by
  induction word generalizing cs' with
  | nil => exact ⟨cs', rfl, h⟩
  | cons w word ih =>
    cases h with
    | cons h =>
      obtain ⟨rest, rfl, hr⟩ := ih (fun hm => hw (List.mem_cons_of_mem _ hm)) h
      exact ⟨rest, rfl, hr⟩
    | insert => exact absurd List.mem_cons_self hw

theorem isPrefixOf_eq {word : List Char} (hw : ')' ∉ word) (h : Woven cs cs') :
    word.isPrefixOf cs' = word.isPrefixOf cs := by
  induction word generalizing cs cs' with
  | nil => cases cs <;> cases cs' <;> rfl
  | cons w word ih =>
    cases h with
    | nil => rfl
    | cons h =>
      rw [List.isPrefixOf, List.isPrefixOf, ih (fun hm => hw (List.mem_cons_of_mem _ hm)) h]
    | insert =>
      have hne : w ≠ ')' := fun h => hw (h ▸ List.mem_cons_self)
      simp [List.isPrefixOf, beq_eq_false_iff_ne.mpr hne]

end Woven

end DeferredLog.Text
