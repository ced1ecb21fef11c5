import DeferredLog.Json.Parser

/-!
# Reading JSON text back

The compact text of a value is read as that value, with what follows it left alone. Doubles are left
out: their digits are those of another notation.

* `Json.stringRest?_escape`: strings are read back.
* `Json.number?_toString`: integers of 64 bits are read back.
* `Json.parse?_text`: so is every value without doubles whose keys stand in order.
-/

namespace DeferredLog.Json

/-! ## Strings -/

/-- Whether a text is an escape that stands for a character: by its code or by a letter. -/
def standsFor (c : Char) : List Char → Bool
  | slash :: e :: rest =>
    slash = '\\' &&
      if e = 'u' then rest.length = 4 && Text.hexNumber? 0 rest = some c.toNat
      else rest.isEmpty && letterEscape? e = some c
  | _ => false

/-- The characters that are escaped. -/
theorem standsFor_escape : ∀ n ∈ 0x22 :: 0x5C :: List.range 0x20,
    standsFor (Char.ofNat n) (escape (Char.ofNat n)).toList = true := by
  decide +kernel

theorem escape_eq_self {c : Char} (hquote : c ≠ '"') (hslash : c ≠ '\\') (h : 0x20 ≤ c.toNat) :
    escape c = c.toString := by
  have : ∀ d : Char, d.toNat < 0x20 → c ≠ d := by
    rintro d hd rfl
    omega
  simp [escape, hquote, hslash, this _ (by decide : '\x08'.toNat < 0x20),
    this _ (by decide : '\x0C'.toNat < 0x20), this _ (by decide : '\n'.toNat < 0x20),
    this _ (by decide : '\r'.toNat < 0x20), this _ (by decide : '\t'.toNat < 0x20),
    show ¬ c.toNat < 0x10 by omega, show ¬ c.toNat < 0x20 by omega]

/-- An escaped character is read back. -/
theorem stringRest?_escape_append (c : Char) (cs : List Char) :
    stringRest? ((escape c).toList ++ cs) = (stringRest? cs).map fun r => (c :: r.1, r.2) := by
  by_cases hplain : c ≠ '"' ∧ c ≠ '\\' ∧ 0x20 ≤ c.toNat
  · obtain ⟨hquote, hslash, h⟩ := hplain
    rw [escape_eq_self hquote hslash h]
    rw [show c.toString.toList = [c] by simp, List.singleton_append, stringRest?]
    · simp [hslash, show ¬ c.toNat < 0x20 by omega]
    · exact hquote
    · exact fun _ _ _ _ _ he => absurd he hslash
    · exact fun _ _ he => absurd he hslash
  · have hmem : c.toNat ∈ 0x22 :: 0x5C :: List.range 0x20 := by
      rw [List.mem_cons, List.mem_cons, List.mem_range]
      refine Decidable.byContradiction fun h => hplain ⟨?_, ?_, by omega⟩ <;>
      · rintro rfl
        exact h (by decide)
    have hescape := standsFor_escape c.toNat hmem
    rw [Char.ofNat_toNat] at hescape
    have hcode : c.toNat < 0xD800 := by
      simp only [List.mem_cons, List.mem_range] at hmem
      omega
    generalize (escape c).toList = text at hescape
    match text, hescape with
    | slash :: e :: rest, hescape =>
      simp only [standsFor, Bool.and_eq_true, decide_eq_true_eq] at hescape
      obtain ⟨rfl, hescape⟩ := hescape
      split at hescape
      · rename_i hu
        subst hu
        simp only [Bool.and_eq_true, decide_eq_true_eq] at hescape
        obtain ⟨hlength, hnumber⟩ := hescape
        match rest, hlength with
        | [a, b, c', d], _ => simp [stringRest?, hnumber, hcode]
      · rename_i hu
        simp only [Bool.and_eq_true, List.isEmpty_iff, decide_eq_true_eq] at hescape
        obtain ⟨rfl, hletter⟩ := hescape
        rw [List.cons_append, List.cons_append, List.nil_append, stringRest?]
        · simp [hletter]
        · exact fun _ _ _ _ _ he => absurd he hu

theorem stringRest?_escape (cs rest : List Char) :
    stringRest? (cs.flatMap (fun c => (escape c).toList) ++ '"' :: rest) = some (cs, rest) := by
  induction cs with
  | nil => simp [stringRest?]
  | cons c cs ih => rw [List.flatMap_cons, List.append_assoc, stringRest?_escape_append, ih]; rfl

theorem toList_quoted (s : String) (rest : List Char) : (quoted s).toList ++ rest =
    '"' :: (s.toList.flatMap (fun c => (escape c).toList) ++ '"' :: rest) := by
  simp [quoted, List.flatMap_map]

/-! ## Numbers -/

/-- The characters that may follow a value. -/
def Ends (rest : List Char) : Prop :=
  ∀ c, rest.head? = some c → c = ',' ∨ c = ']' ∨ c = '\x7d'

theorem Ends.head? {rest : List Char} (h : Ends rest) {p : Char → Bool} (hcomma : p ',' = false)
    (hbracket : p ']' = false) (hbrace : p '\x7d' = false) : ∀ c ∈ rest.head?, p c = false := by
  intro c hc
  rcases h c hc with rfl | rfl | rfl <;> assumption

theorem wholeDigits_eq {cs : List Char} {n : Nat}
    (h : cs.foldl (fun n c => n * 10 + digitValue c) n ≤ maxUnsigned) :
    wholeDigits cs n = (cs.foldl (fun n c => n * 10 + digitValue c) n, 0) := by
  have grows : ∀ (cs : List Char) n, n ≤ cs.foldl (fun n c => n * 10 + digitValue c) n := by
    intro cs
    induction cs with
    | nil => exact Nat.le_refl
    | cons c cs ih => exact fun n => Nat.le_trans (by show n ≤ n * 10 + _; omega) (ih _)
  induction cs generalizing n with
  | nil => rfl
  | cons c cs ih =>
    rw [List.foldl_cons] at h ⊢
    rw [wholeDigits, if_pos (Nat.le_trans (grows cs _) h), ih h]

theorem natOfDigits_toDigits (n : Nat) : natOfDigits (Nat.toDigits 10 n) = n := by
  induction n using Nat.strongRecOn with
  | _ n ih =>
  have hdigit : ∀ d < 10, digitValue (Nat.digitChar d) = d := by decide
  by_cases h : n < 10
  · rw [Nat.toDigits_of_lt_base h]
    simp [natOfDigits, hdigit n h]
  · rw [Nat.toDigits_of_base_le (by omega) (by omega), natOfDigits, List.foldl_append]
    have := ih (n / 10) (by omega)
    rw [natOfDigits] at this
    rw [this, List.foldl_cons, List.foldl_nil, hdigit _ (Nat.mod_lt n (by omega))]
    omega

/-- A number that is not zero starts with another digit. -/
theorem head?_toDigits {n : Nat} (h : 0 < n) : (Nat.toDigits 10 n).head? ≠ some '0' := by
  induction n using Nat.strongRecOn with
  | _ n ih =>
  have hdigit : ∀ d < 10, 0 < d → Nat.digitChar d ≠ '0' := by decide
  by_cases hlt : n < 10
  · rw [Nat.toDigits_of_lt_base hlt]
    simpa using hdigit n hlt h
  · have ih := ih (n / 10) (by omega) (by omega)
    rw [Nat.toDigits_of_base_le (by omega) (by omega), List.head?_append]
    cases hd : (Nat.toDigits 10 (n / 10)).head? with
    | none => simp at hd
    | some d => simpa [hd] using ih

theorem digits_toDigits (n : Nat) {rest : List Char} (h : Ends rest) :
    digits (Nat.toDigits 10 n ++ rest) = (Nat.toDigits 10 n, rest) := by
  have hall : ∀ c ∈ Nat.toDigits 10 n, c.isDigit = true := fun c hc =>
    Nat.isDigit_of_mem_toDigits (by omega) (by omega) hc
  have hrest : rest.takeWhile Char.isDigit = [] ∧ rest.dropWhile Char.isDigit = rest := by
    cases rest with
    | nil => exact ⟨rfl, rfl⟩
    | cons c rest =>
      have := h.head? (p := Char.isDigit) rfl rfl rfl c rfl
      simp [this]
  rw [digits, List.takeWhile_append_of_pos hall, List.dropWhile_append_of_pos hall, hrest.1, hrest.2,
    List.append_nil]

theorem whole?_toDigits (n : Nat) {rest : List Char} (h : Ends rest) :
    whole? (Nat.toDigits 10 n ++ rest) = some (Nat.toDigits 10 n, rest) := by
  rw [whole?, digits_toDigits n h]
  split
  · rename_i he
    exact absurd (Prod.mk.inj he).1 Nat.toDigits_ne_nil
  · rename_i he
    have hn : n = 0 := by
      refine Decidable.byContradiction fun hn => head?_toDigits (n := n) (by omega) ?_
      rw [(Prod.mk.inj he).1]
      rfl
    simp [hn] at he
  · rename_i he
    obtain ⟨rfl, rfl⟩ := Prod.mk.inj he
    rfl

theorem fraction?_of_ends {rest : List Char} (h : Ends rest) : fraction? rest = some (none, rest) := by
  cases rest with
  | nil => rfl
  | cons c rest =>
    rw [fraction?]
    rintro more ⟨⟩
    exact absurd (h '.' rfl) (by decide)

theorem exponent?_of_ends {rest : List Char} (h : Ends rest) : exponent? rest = some (none, rest) := by
  cases rest with
  | nil => rfl
  | cons c rest =>
    have hc : ¬ (c = 'e' || c = 'E') = true := by rcases h c rfl with rfl | rfl | rfl <;> decide
    simp only [exponent?, if_neg hc]

theorem wholeDigits_toDigits {n : Nat} (h : n ≤ maxUnsigned) :
    wholeDigits (Nat.toDigits 10 n) 0 = (n, 0) := by
  have hvalue : (Nat.toDigits 10 n).foldl (fun n c => n * 10 + digitValue c) 0 = n :=
    natOfDigits_toDigits n
  rw [wholeDigits_eq (hvalue.symm ▸ h), hvalue]

/-- A number behind its sign. -/
def unsigned? (negative : Bool) (cs : List Char) : Option (Json × List Char) := do
  let (whole, cs) ← whole? cs
  let (fraction, cs) ← fraction? cs
  let (exponent, cs) ← exponent? cs
  let value ← Numeral.value ⟨negative, whole, fraction, exponent⟩
  return (value, cs)

theorem number?_minus (cs : List Char) : number? ('-' :: cs) = unsigned? true cs := rfl

theorem number?_plain {cs : List Char} (h : cs.head? ≠ some '-') : number? cs = unsigned? false cs := by
  unfold number? unsigned?
  split
  rename_i he
  split at he
  · exact absurd rfl h
  · cases he
    rfl

/-- A number that is nothing but digits has the value of its digits. -/
theorem unsigned?_of_whole {ds rest : List Char} (negative : Bool)
    (hwhole : whole? (ds ++ rest) = some (ds, rest)) (h : Ends rest) :
    unsigned? negative (ds ++ rest) =
      (Numeral.value ⟨negative, ds, none, none⟩).map fun value => (value, rest) := by
  unfold unsigned?
  rw [hwhole]
  simp only [Option.bind_eq_bind, Option.bind_some, fraction?_of_ends h, exponent?_of_ends h]
  cases Numeral.value ⟨negative, ds, none, none⟩ <;> rfl

theorem head?_digits_ne_minus (n : Nat) (rest : List Char) :
    (Nat.toDigits 10 n ++ rest).head? ≠ some '-' := by
  cases hd : Nat.toDigits 10 n with
  | nil => exact absurd hd Nat.toDigits_ne_nil
  | cons d ds =>
    have hdigit : d.isDigit = true :=
      Nat.isDigit_of_mem_toDigits (by omega) (by omega) (hd ▸ List.mem_cons_self)
    rw [List.cons_append, List.head?_cons, ne_eq, Option.some.injEq]
    rintro rfl
    exact absurd hdigit (by decide)

/-- The value of a run of digits behind a sign. -/
theorem value_toDigits {n : Nat} (h : n ≤ maxUnsigned) :
    Numeral.value ⟨false, Nat.toDigits 10 n, none, none⟩ = some (.integer n) := by
  simp only [Numeral.value, wholeDigits_toDigits h]
  rfl

theorem value_minus_toDigits {n : Nat} (hpos : 0 < n) (h : n ≤ Nat.pow 2 63) :
    Numeral.value ⟨true, Nat.toDigits 10 n, none, none⟩ = some (.integer (-n)) := by
  have hmax : n ≤ maxUnsigned := Nat.le_trans h (by decide)
  have hzero : (n = 0 || Nat.pow 2 63 < n) = false := by
    simp only [Bool.or_eq_false_iff, decide_eq_false_iff_not]
    omega
  simp only [Numeral.value, wholeDigits_toDigits hmax]
  rw [if_pos trivial, if_neg (by decide), hzero]
  rfl

/-- **An integer of 64 bits is read back.** -/
theorem number?_toString {n : Int} (hlow : (-n).toNat ≤ Nat.pow 2 63) (hhigh : n.toNat ≤ maxUnsigned)
    {rest : List Char} (h : Ends rest) : number? ((toString n).toList ++ rest) = some (.integer n, rest) := by
  rw [Int.toString_eq_repr, Int.repr_eq_if]
  split
  · rename_i hn
    obtain ⟨m, rfl⟩ := Int.eq_ofNat_of_zero_le hn
    have htext : (Nat.repr m).toList = Nat.toDigits 10 m := by simp [Nat.repr]
    have hmax : m ≤ maxUnsigned := by rwa [Int.toNat_natCast] at hhigh
    rw [Int.toNat_natCast, htext, number?_plain (head?_digits_ne_minus m rest),
      unsigned?_of_whole false (whole?_toDigits m h) h, value_toDigits hmax]
    rfl
  · rename_i hn
    obtain ⟨m, rfl⟩ := Int.exists_eq_neg_ofNat (a := n) (by omega)
    have htext : ("-" ++ Nat.repr m).toList = '-' :: Nat.toDigits 10 m := by simp [Nat.repr]
    have hmax : m ≤ Nat.pow 2 63 := by rwa [Int.neg_neg, Int.toNat_natCast] at hlow
    rw [Int.neg_neg, Int.toNat_natCast, htext, List.cons_append, number?_minus,
      unsigned?_of_whole true (whole?_toDigits m h) h, value_minus_toDigits (by omega) hmax]
    rfl

/-! ## Values -/

/-- A value whose text is read as the value, with at most so many arrays and objects inside one another.
Doubles are left out, and the keys of an object stand in order. -/
inductive Readable : Nat → Json → Prop
  | null {depth} : Readable depth .null
  | bool {depth} (value : Bool) : Readable depth (.bool value)
  | integer {depth n} : (-n).toNat ≤ Nat.pow 2 63 → n.toNat ≤ maxUnsigned →
      Readable depth (.integer n)
  | string {depth} (s : String) : Readable depth (.string s)
  | array {depth items} : (∀ item ∈ items, Readable depth item) → Readable (depth + 1) (.array items)
  | object {depth members} : (members.Pairwise fun a b => a.1 < b.1) →
      (∀ member ∈ members, Readable depth member.2) → Readable (depth + 1) (.object members)

/-- A reader finds a value at the front of a text, and leaves the rest. -/
def Finds {α : Type} {bound : Nat} (read : Option (Read α bound)) (value : α) (rest : List Char) :
    Prop :=
  ∃ found, read = some found ∧ found.value = value ∧ found.rest = rest

/-- A text starts with the first character of a value. -/
def Opens (cs : List Char) : Prop :=
  ∃ c more, cs = c :: more ∧ isBlank c = false ∧ c ≠ ']' ∧ c ≠ '\x7d'

theorem skipBlank_of_head {c : Char} (h : isBlank c = false) (cs : List Char) :
    skipBlank (c :: cs) = c :: cs := by
  rw [skipBlank, List.dropWhile_cons_of_neg (by simp [h])]

theorem shorter?_finds {α : Type} {bound : Nat} {found : α × List Char}
    (h : found.2.length < bound) : Finds (shorter? bound found) found.1 found.2 :=
  ⟨⟨found.1, found.2, h⟩, dif_pos h, rfl, rfl⟩

theorem value?_number {depth : Nat} {c : Char} {cs : List Char} {found : Json × List Char}
    (hc : c = '-' ∨ c.isDigit = true) (h : number? (c :: cs) = some found)
    (hlt : found.2.length < (c :: cs).length) : Finds (value? depth (c :: cs)) found.1 found.2 := by
  have hne : c ≠ 'n' ∧ c ≠ 't' ∧ c ≠ 'f' ∧ c ≠ '"' ∧ c ≠ '[' ∧ c ≠ '\x7b' := by
    refine ⟨?_, ?_, ?_, ?_, ?_, ?_⟩ <;>
    · rintro rfl
      exact absurd hc (by decide)
  obtain ⟨h₁, h₂, h₃, h₄, h₅, h₆⟩ := hne
  rw [value?.eq_def]
  simp only [h₁, h₂, h₃, h₄, h₅, h₆, if_false, h, Option.bind_eq_bind, Option.bind_some]
  exact shorter?_finds hlt

theorem value?_string {depth : Nat} (s : String) (rest : List Char) :
    Finds (value? depth ((quoted s).toList ++ rest)) (.string s) rest := by
  have hread := stringRest?_escape s.toList rest
  rw [toList_quoted, value?.eq_def]
  simp only [hread, Option.bind_eq_bind, Option.bind_some, String.ofList_toList]
  rw [if_neg (by decide), if_neg (by decide), if_neg (by decide), if_pos trivial]
  exact shorter?_finds (by simp; omega)

/-- An array is read item by item. Behind an item it ends, or goes on behind a comma. -/
theorem items?_read {depth : Nat} {cs more rest : List Char} {item : Json} {items : List Json}
    (hitem : Finds (value? depth (skipBlank cs)) item more)
    (hmore : (more = ']' :: rest ∧ items = []) ∨
      ∃ next, more = ',' :: next ∧ Finds (items? depth next) items rest) :
    Finds (items? depth cs) (item :: items) rest := by
  obtain ⟨found, hfound, rfl, rfl⟩ := hitem
  rw [items?.eq_def, hfound]
  simp only [Option.bind_eq_bind, Option.bind_some]
  have hskip : skipBlank found.rest = found.rest := by
    rcases hmore with ⟨hr, -⟩ | ⟨next, hr, -⟩ <;>
    · rw [hr]
      exact skipBlank_of_head rfl _
  split <;> rename_i h
  · rcases hmore with ⟨hr, -⟩ | ⟨next, hr, others, hothers, rfl, rfl⟩ <;> rw [hskip, hr] at h <;> cases h
    rw [hothers]
    exact ⟨_, rfl, rfl, rfl⟩
  · rcases hmore with ⟨hr, rfl⟩ | ⟨next, hr, -⟩ <;> rw [hskip, hr] at h <;> cases h
    exact ⟨_, rfl, rfl, rfl⟩
  · rename_i h'
    rcases hmore with ⟨hr, -⟩ | ⟨next, hr, -⟩
    · exact absurd (hskip.trans hr) (h rest)
    · exact absurd (hskip.trans hr) (h' next)

/-- What is read of a member up to its value. -/
theorem skipBlank_quoted (key : String) (rest : List Char) :
    skipBlank ((quoted key).toList ++ rest) =
      '"' :: (key.toList.flatMap (fun c => (escape c).toList) ++ '"' :: rest) := by
  rw [toList_quoted]
  exact skipBlank_of_head rfl _

/-- An object is read member by member. Behind a member it ends, or goes on behind a comma. -/
theorem members?_read {depth : Nat} {key : String} {cs more rest : List Char} {value : Json}
    {members : List (String × Json)} (hvalue : Finds (value? depth (skipBlank cs)) value more)
    (hmore : (more = '\x7d' :: rest ∧ members = []) ∨
      ∃ next, more = ',' :: next ∧ Finds (members? depth next) members rest) :
    Finds (members? depth ((quoted key).toList ++ ':' :: cs)) ((key, value) :: members) rest := by
  obtain ⟨found, hfound, rfl, rfl⟩ := hvalue
  have hskip : skipBlank found.rest = found.rest := by
    rcases hmore with ⟨hr, -⟩ | ⟨next, hr, -⟩ <;>
    · rw [hr]
      exact skipBlank_of_head rfl _
  have hcolon : skipBlank (':' :: cs) = ':' :: cs := skipBlank_of_head rfl _
  rw [members?.eq_def]
  split
  · rename_i hq
    rw [skipBlank_quoted] at hq
    cases hq
    rw [stringRest?_escape]
    simp only [Option.bind_eq_bind, Option.bind_some, shorter?]
    rw [dif_pos (by simp; omega)]
    simp only [Option.bind_some, String.ofList_toList]
    split <;> rename_i hc
    · rw [hcolon] at hc
      cases hc
      rw [hfound]
      simp only [Option.bind_some]
      split <;> rename_i h
      · rcases hmore with ⟨hr, -⟩ | ⟨next, hr, others, hothers, rfl, rfl⟩ <;> rw [hskip, hr] at h <;>
          cases h
        rw [hothers]
        exact ⟨_, rfl, rfl, rfl⟩
      · rcases hmore with ⟨hr, rfl⟩ | ⟨next, hr, -⟩ <;> rw [hskip, hr] at h <;> cases h
        exact ⟨_, rfl, rfl, rfl⟩
      · rename_i h'
        rcases hmore with ⟨hr, -⟩ | ⟨next, hr, -⟩
        · exact absurd (hskip.trans hr) (h rest)
        · exact absurd (hskip.trans hr) (h' next)
    · exact absurd hcolon (hc cs)
  · rename_i h
    exact absurd (skipBlank_quoted key _) (h _)

theorem value?_array {depth : Nat} {cs rest : List Char} {items : List Json} (hcs : Opens cs)
    (h : Finds (items? depth cs) items rest) :
    Finds (value? (depth + 1) ('[' :: cs)) (.array items) rest := by
  obtain ⟨c, more, rfl, hblank, hbracket, -⟩ := hcs
  obtain ⟨found, hfound, rfl, rfl⟩ := h
  rw [value?.eq_def]
  simp only
  rw [if_neg (by decide), if_neg (by decide), if_neg (by decide), if_neg (by decide), if_pos trivial]
  split <;> rename_i h
  · rw [skipBlank_of_head hblank] at h
    exact absurd (List.cons.inj h).1 hbracket
  · rw [hfound]
    exact ⟨_, rfl, rfl, rfl⟩

theorem value?_object {depth : Nat} {cs rest : List Char} {members : List (String × Json)}
    (hcs : Opens cs) (h : Finds (members? depth cs) members rest) :
    Finds (value? (depth + 1) ('\x7b' :: cs)) (ofMembers members) rest := by
  obtain ⟨c, more, rfl, hblank, -, hbrace⟩ := hcs
  obtain ⟨found, hfound, rfl, rfl⟩ := h
  rw [value?.eq_def]
  simp only
  rw [if_neg (by decide), if_neg (by decide), if_neg (by decide), if_neg (by decide),
    if_neg (by decide), if_pos trivial]
  split <;> rename_i h
  · rw [skipBlank_of_head hblank] at h
    exact absurd (List.cons.inj h).1 hbrace
  · rw [hfound]
    exact ⟨_, rfl, rfl, rfl⟩

/-! ## Reading back -/

theorem ne_of_isDigit {c d : Char} (hd : d.isDigit = true) (hc : c.isDigit = false) : d ≠ c := by
  rintro rfl
  rw [hc] at hd
  cases hd

theorem opens_quoted (s : String) (rest : List Char) : Opens ((quoted s).toList ++ rest) := by
  rw [toList_quoted]
  exact ⟨_, _, rfl, by decide⟩

/-- An integer starts with a digit or a minus sign. -/
theorem toString_head (n : Int) :
    ∃ c more, (toString n).toList = c :: more ∧ (c = '-' ∨ c.isDigit = true) := by
  rw [Int.toString_eq_repr, Int.repr_eq_if]
  split
  · have htext : (Nat.repr n.toNat).toList = Nat.toDigits 10 n.toNat := by simp [Nat.repr]
    obtain ⟨d, ds, hd⟩ := List.exists_cons_of_ne_nil (Nat.toDigits_ne_nil (n := n.toNat) (b := 10))
    exact ⟨d, ds, htext.trans hd,
      .inr (Nat.isDigit_of_mem_toDigits (by omega) (by omega) (hd ▸ List.mem_cons_self))⟩
  · exact ⟨'-', _, by simp; rfl, .inl rfl⟩

theorem opens_toString (n : Int) (rest : List Char) : Opens ((toString n).toList ++ rest) := by
  obtain ⟨c, more, hn, hc⟩ := toString_head n
  rw [hn]
  refine ⟨c, _, rfl, ?_⟩
  rcases hc with rfl | hdigit
  · decide
  · refine ⟨?_, ne_of_isDigit hdigit rfl, ne_of_isDigit hdigit rfl⟩
    simp [isBlank, ne_of_isDigit hdigit (c := ' ') rfl, ne_of_isDigit hdigit (c := '\n') rfl,
      ne_of_isDigit hdigit (c := '\t') rfl, ne_of_isDigit hdigit (c := '\r') rfl]

theorem value?_toString {depth : Nat} {n : Int} (hlow : (-n).toNat ≤ Nat.pow 2 63)
    (hhigh : n.toNat ≤ maxUnsigned) {rest : List Char} (h : Ends rest) :
    Finds (value? depth ((toString n).toList ++ rest)) (.integer n) rest := by
  have hnumber := number?_toString hlow hhigh h
  obtain ⟨c, more, hn, hc⟩ := toString_head n
  rw [hn, List.cons_append] at hnumber ⊢
  exact value?_number hc hnumber (Nat.lt_succ_of_le (by simp))

theorem Readable.opens {depth : Nat} {json : Json} (h : Readable depth json) (rest : List Char) :
    Opens (json.text.toList ++ rest) := by
  cases h with
  | null => exact ⟨'n', _, rfl, by decide⟩
  | bool value => cases value <;> exact ⟨_, _, rfl, by decide⟩
  | integer => exact opens_toString _ _
  | string s => exact opens_quoted s rest
  | array => exact ⟨'[', _, by simp [text]; rfl, by decide⟩
  | object => exact ⟨'\x7b', _, by simp [text]; rfl, by decide⟩

theorem ends_of_head {c : Char} (h : c = ',' ∨ c = ']' ∨ c = '\x7d') (rest : List Char) :
    Ends (c :: rest) := by
  rintro d ⟨⟩
  exact h

theorem Opens.skipBlank {cs : List Char} (h : Opens cs) : skipBlank cs = cs := by
  obtain ⟨c, more, rfl, hc, -⟩ := h
  exact skipBlank_of_head hc more

/-- The texts of some items are read back, if that of each one is. -/
theorem items?_itemsText {depth : Nat} {items : List Json} (hne : items ≠ [])
    (hread : ∀ item ∈ items, ∀ rest, Ends rest →
      Opens (item.text.toList ++ rest) ∧ Finds (value? depth (item.text.toList ++ rest)) item rest)
    (rest : List Char) : Opens ((itemsText items).toList ++ ']' :: rest) ∧
      Finds (items? depth ((itemsText items).toList ++ ']' :: rest)) items rest := by
  induction items with
  | nil => exact absurd rfl hne
  | cons item items ih =>
    obtain ⟨hitem, hitems⟩ := List.forall_mem_cons.mp hread
    by_cases hitems' : items = []
    · subst hitems'
      obtain ⟨hopens, hfinds⟩ := hitem (']' :: rest) (ends_of_head (by decide) _)
      rw [show itemsText [item] = item.text from rfl]
      exact ⟨hopens, items?_read (by rw [hopens.skipBlank]; exact hfinds) (.inl ⟨rfl, rfl⟩)⟩
    · obtain ⟨-, hrest⟩ := ih hitems' hitems
      obtain ⟨hopens, hfinds⟩ := hitem (',' :: ((itemsText items).toList ++ ']' :: rest))
        (ends_of_head (by decide) _)
      have htext : (itemsText (item :: items)).toList ++ ']' :: rest =
          item.text.toList ++ ',' :: ((itemsText items).toList ++ ']' :: rest) := by
        obtain ⟨next, more, rfl⟩ := List.exists_cons_of_ne_nil hitems'
        simp [itemsText]
      rw [htext]
      exact ⟨hopens, items?_read (by rw [hopens.skipBlank]; exact hfinds) (.inr ⟨_, rfl, hrest⟩)⟩

/-- The texts of some members are read back, if that of each value is. -/
theorem members?_membersText {depth : Nat} {members : List (String × Json)} (hne : members ≠ [])
    (hread : ∀ member ∈ members, ∀ rest, Ends rest → Opens (member.2.text.toList ++ rest) ∧
      Finds (value? depth (member.2.text.toList ++ rest)) member.2 rest)
    (rest : List Char) : Opens ((membersText members).toList ++ '\x7d' :: rest) ∧
      Finds (members? depth ((membersText members).toList ++ '\x7d' :: rest)) members rest := by
  induction members with
  | nil => exact absurd rfl hne
  | cons member members ih =>
    obtain ⟨key, value⟩ := member
    obtain ⟨hmember, hmembers⟩ := List.forall_mem_cons.mp hread
    by_cases hmembers' : members = []
    · subst hmembers'
      obtain ⟨hopens, hfinds⟩ := hmember ('\x7d' :: rest) (ends_of_head (by decide) _)
      have htext : (membersText [(key, value)]).toList ++ '\x7d' :: rest =
          (quoted key).toList ++ ':' :: (value.text.toList ++ '\x7d' :: rest) := by
        simp [membersText]
      rw [htext]
      exact ⟨opens_quoted _ _,
        members?_read (by rw [hopens.skipBlank]; exact hfinds) (.inl ⟨rfl, rfl⟩)⟩
    · obtain ⟨-, hrest⟩ := ih hmembers' hmembers
      obtain ⟨hopens, hfinds⟩ := hmember (',' :: ((membersText members).toList ++ '\x7d' :: rest))
        (ends_of_head (by decide) _)
      have htext : (membersText ((key, value) :: members)).toList ++ '\x7d' :: rest =
          (quoted key).toList ++
            ':' :: (value.text.toList ++ ',' :: ((membersText members).toList ++ '\x7d' :: rest)) := by
        obtain ⟨next, more, rfl⟩ := List.exists_cons_of_ne_nil hmembers'
        obtain ⟨key', value'⟩ := next
        simp [membersText]
      rw [htext]
      exact ⟨opens_quoted _ _,
        members?_read (by rw [hopens.skipBlank]; exact hfinds) (.inr ⟨_, rfl, hrest⟩)⟩

theorem insertMember_of_lt {member : String × Json} {members : List (String × Json)}
    (h : ∀ other ∈ members, other.1 < member.1) :
    insertMember member.1 member.2 members = members ++ [member] := by
  induction members with
  | nil => rfl
  | cons other members ih =>
    obtain ⟨hother, hmembers⟩ := List.forall_mem_cons.mp h
    obtain ⟨key, value⟩ := other
    have hne : member.1 ≠ key := fun he => String.lt_irrefl key (he ▸ hother)
    rw [insertMember, if_neg hne, if_neg (String.lt_asymm hother), ih hmembers, List.cons_append]

/-- Members whose keys stand in order make up an object as they are. -/
theorem ofMembers_of_sorted {members : List (String × Json)}
    (h : members.Pairwise fun a b => a.1 < b.1) : ofMembers members = .object members := by
  have grows (done rest : List (String × Json))
      (h : (done ++ rest).Pairwise fun a b => a.1 < b.1) :
      rest.foldl (fun done member => insertMember member.1 member.2 done) done = done ++ rest := by
    induction rest generalizing done with
    | nil => simp
    | cons member rest ih =>
      have hdone : ∀ other ∈ done, other.1 < member.1 := fun other hm =>
        (List.pairwise_append.mp h).2.2 other hm member List.mem_cons_self
      rw [List.foldl_cons, insertMember_of_lt hdone, ih (done ++ [member]) (by simpa using h)]
      simp
  rw [ofMembers, grows [] members h, List.nil_append]

/-- **The text of a value is read back**, with what follows it left alone. -/
theorem Readable.value?_text {depth : Nat} {json : Json} (h : Readable depth json) (rest : List Char)
    (hrest : Ends rest) : Finds (value? depth (json.text.toList ++ rest)) json rest := by
  induction h generalizing rest with
  | null =>
    rw [show (text .null).toList ++ rest = 'n' :: 'u' :: 'l' :: 'l' :: rest from rfl, value?.eq_def]
    exact ⟨_, rfl, rfl, rfl⟩
  | bool value =>
    cases value with
    | true =>
      rw [show (text (.bool true)).toList ++ rest = 't' :: 'r' :: 'u' :: 'e' :: rest from rfl,
        value?.eq_def]
      exact ⟨_, rfl, rfl, rfl⟩
    | false =>
      rw [show (text (.bool false)).toList ++ rest = 'f' :: 'a' :: 'l' :: 's' :: 'e' :: rest from rfl,
        value?.eq_def]
      exact ⟨_, rfl, rfl, rfl⟩
  | integer hlow hhigh => exact value?_toString hlow hhigh hrest
  | string s => exact value?_string s rest
  | @array depth items hitems ih =>
    by_cases hne : items = []
    · subst hne
      rw [show (text (.array [])).toList ++ rest = '[' :: ']' :: rest from rfl, value?.eq_def]
      exact ⟨_, rfl, rfl, rfl⟩
    · obtain ⟨hopens, hfinds⟩ := items?_itemsText hne
        (fun item hm rest hr => ⟨(hitems item hm).opens rest, ih item hm rest hr⟩) rest
      have htext : (text (.array items)).toList ++ rest =
          '[' :: ((itemsText items).toList ++ ']' :: rest) := by simp [text]
      rw [htext]
      exact value?_array hopens hfinds
  | @object depth members hsorted hmembers ih =>
    by_cases hne : members = []
    · subst hne
      rw [show (text (.object [])).toList ++ rest = '\x7b' :: '\x7d' :: rest from rfl, value?.eq_def]
      exact ⟨_, rfl, rfl, rfl⟩
    · obtain ⟨hopens, hfinds⟩ := members?_membersText hne
        (fun member hm rest hr => ⟨(hmembers member hm).opens rest, ih member hm rest hr⟩) rest
      have htext : (text (.object members)).toList ++ rest =
          '\x7b' :: ((membersText members).toList ++ '\x7d' :: rest) := by simp [text]
      rw [htext, ← ofMembers_of_sorted hsorted]
      exact value?_object hopens hfinds

/-- **A value is what its text is read as.** -/
theorem parse?_text {json : Json} (h : Readable maxDepth json) : parse? json.text = some json := by
  have hopens := h.opens []
  have hfinds := h.value?_text [] (by simp [Ends])
  rw [List.append_nil] at hopens hfinds
  rw [← hopens.skipBlank] at hfinds
  obtain ⟨found, hfound, hvalue, hrest⟩ := hfinds
  rw [parse?, hfound, Option.bind_eq_bind, Option.bind_some, hrest, hvalue]
  rfl

end DeferredLog.Json
