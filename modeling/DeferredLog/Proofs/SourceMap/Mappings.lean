import DeferredLog.Proofs.SourceMap.Lists
import DeferredLog.Proofs.Text.Split
import DeferredLog.SourceMap.Mappings

/-!
# Mappings read back

The text of some lines of segments is read as those lines, as long as every field fits into 32 bits.
Differences of such fields are far from the bounds of their sums and codes, so none is cut off.

* `Mappings.segmentsOf_stepsOf`: the differences of a line lead back to its segments.
* `Mappings.lineOf_text`: the text of the differences of a line is read back.
* `Mappings.decode_encode`: the text of some lines is read back.
-/

namespace DeferredLog.Mappings

/-! ## Differences -/

/-- Every field of a segment fits into 32 bits. -/
structure Fits (segment : Segment Nat) : Prop where
  /-- The generated column. -/
  column : segment.column < Base.words
  /-- The place it comes from. -/
  origin : ∀ origin ∈ segment.origin, origin.source < Base.words ∧ origin.line < Base.words ∧
    origin.column < Base.words ∧ ∀ name ∈ origin.name, name < Base.words

/-- A field of a base fits into 32 bits. -/
def Word (field : Int) : Prop :=
  0 ≤ field ∧ field < Base.words

instance (field : Int) : Decidable (Word field) :=
  inferInstanceAs (Decidable (0 ≤ field ∧ field < Base.words))

/-- Every field of a base fits into 32 bits. -/
structure Base.Fits (base : Base) : Prop where
  column : Word base.column
  source : Word base.source
  sourceLine : Word base.sourceLine
  sourceColumn : Word base.sourceColumn
  name : Word base.name

theorem Base.fits_zero : Base.zero.Fits := by
  refine ⟨?_, ?_, ?_, ?_, ?_⟩ <;> exact ⟨Int.le_refl _, by decide⟩

theorem Base.Fits.newLine {base : Base} (h : base.Fits) : base.newLine.Fits :=
  ⟨fits_zero.column, h.source, h.sourceLine, h.sourceColumn, h.name⟩

theorem words_eq : Base.words = 4294967296 := rfl

theorem word_natCast {n : Nat} (h : n < Base.words) : Base.word (n : Int) = n := by
  rw [Base.word, if_pos ⟨Int.natCast_nonneg n, Int.ofNat_lt.mpr h⟩, Int.toNat_natCast]

/-- A difference of two fields leads from one to the other. -/
theorem sum_sub {field : Int} {n : Nat} (hf : Word field) (hn : n < Base.words) :
    Base.sum field (n - field) = n := by
  obtain ⟨hlow, hhigh⟩ := hf
  have hcodes : Vlq.codes = 18446744073709551616 := rfl
  rw [words_eq] at *
  rw [Base.sum_eq_add (by omega)]
  omega

theorem word_of_lt {n : Nat} (h : n < Base.words) : Word n :=
  ⟨Int.natCast_nonneg n, Int.ofNat_lt.mpr h⟩

/-- The fields of a difference fit into a code. -/
theorem codes_of_sub {field : Int} {n : Nat} (hf : Word field) (hn : n < Base.words) :
    2 * (n - field).natAbs < Vlq.codes := by
  obtain ⟨hlow, hhigh⟩ := hf
  have hcodes : Vlq.codes = 18446744073709551616 := rfl
  rw [words_eq] at *
  omega

theorem sum_zero {field : Int} (hf : Word field) : Base.sum field 0 = field := by
  obtain ⟨hlow, hhigh⟩ := hf
  have hcodes : Vlq.codes = 18446744073709551616 := rfl
  rw [words_eq] at *
  rw [Base.sum_eq_add (by omega)]
  omega

/-- The differences of a segment lead back to it. -/
theorem Base.Fits.follow_ahead {base : Base} {segment : Segment Nat} (hb : base.Fits)
    (hs : Mappings.Fits segment) : base.follow (base.ahead segment) = segment := by
  obtain ⟨column, origin⟩ := segment
  have hcolumn := hs.column
  cases origin with
  | none => simp [Base.follow, Base.ahead, Base.add, Base.segment, sum_sub hb.column hcolumn, word_natCast hcolumn]
  | some origin =>
    obtain ⟨source, line, sourceColumn, name⟩ := origin
    obtain ⟨h₁, h₂, h₃, h₄⟩ := hs.origin _ rfl
    cases name with
    | none =>
      simp [Base.follow, Base.ahead, Base.add, Base.segment, sum_sub hb.column hcolumn, word_natCast hcolumn,
        sum_sub hb.source h₁, word_natCast h₁, sum_sub hb.sourceLine h₂, word_natCast h₂,
        sum_sub hb.sourceColumn h₃, word_natCast h₃]
    | some name =>
      have h₄ := h₄ name rfl
      simp [Base.follow, Base.ahead, Base.add, Base.segment, sum_sub hb.column hcolumn, word_natCast hcolumn,
        sum_sub hb.source h₁, word_natCast h₁, sum_sub hb.sourceLine h₂, word_natCast h₂,
        sum_sub hb.sourceColumn h₃, word_natCast h₃, sum_sub hb.name h₄, word_natCast h₄]

/-- Behind the differences of a segment the base fits again. -/
theorem Base.Fits.add_ahead {base : Base} {segment : Segment Nat} (hb : base.Fits)
    (hs : Mappings.Fits segment) : (base.add (base.ahead segment)).Fits := by
  obtain ⟨column, origin⟩ := segment
  have hcolumn := hs.column
  cases origin with
  | none =>
    exact ⟨by simp [Base.ahead, Base.add, sum_sub hb.column hcolumn, word_of_lt hcolumn], hb.source,
      hb.sourceLine, hb.sourceColumn, hb.name⟩
  | some origin =>
    obtain ⟨source, line, sourceColumn, name⟩ := origin
    obtain ⟨h₁, h₂, h₃, h₄⟩ := hs.origin _ rfl
    refine ⟨?_, ?_, ?_, ?_, ?_⟩
    · simp [Base.ahead, Base.add, sum_sub hb.column hcolumn, word_of_lt hcolumn]
    · simp [Base.ahead, Base.add, sum_sub hb.source h₁, word_of_lt h₁]
    · simp [Base.ahead, Base.add, sum_sub hb.sourceLine h₂, word_of_lt h₂]
    · simp [Base.ahead, Base.add, sum_sub hb.sourceColumn h₃, word_of_lt h₃]
    · cases name with
      | none => simp [Base.ahead, Base.add, sum_zero hb.name, hb.name]
      | some name => simp [Base.ahead, Base.add, sum_sub hb.name (h₄ name rfl), word_of_lt (h₄ name rfl)]

/-- Every field of a difference fits into a code. -/
def Coded (step : Segment Int) : Prop :=
  ∀ field ∈ fieldsOf step, 2 * field.natAbs < Vlq.codes

theorem Base.Fits.coded {base : Base} {segment : Segment Nat} (hb : base.Fits)
    (hs : Mappings.Fits segment) : Coded (base.ahead segment) := by
  obtain ⟨column, origin⟩ := segment
  have hcolumn := codes_of_sub hb.column hs.column
  cases origin with
  | none => simpa [Coded, fieldsOf, Base.ahead] using hcolumn
  | some origin =>
    obtain ⟨source, line, sourceColumn, name⟩ := origin
    obtain ⟨h₁, h₂, h₃, h₄⟩ := hs.origin _ rfl
    have hsource := codes_of_sub hb.source h₁
    have hline := codes_of_sub hb.sourceLine h₂
    have hsourceColumn := codes_of_sub hb.sourceColumn h₃
    cases name with
    | none => simp [Coded, fieldsOf, Base.ahead, hcolumn, hsource, hline, hsourceColumn]
    | some name =>
      have hname := codes_of_sub hb.name (h₄ name rfl)
      simp [Coded, fieldsOf, Base.ahead, hcolumn, hsource, hline, hsourceColumn, hname]

/-- **The differences of a line lead back to its segments**, and both ways end at one base. -/
theorem segmentsOf_stepsOf {base : Base} {segments : List (Segment Nat)} (hb : base.Fits)
    (hs : ∀ segment ∈ segments, Fits segment) :
    segmentsOf base (stepsOf base segments).1 = (segments, (stepsOf base segments).2) ∧
      (stepsOf base segments).2.Fits ∧ ∀ step ∈ (stepsOf base segments).1, Coded step := by
  induction segments generalizing base with
  | nil => exact ⟨rfl, hb, by simp [stepsOf]⟩
  | cons segment segments ih =>
    obtain ⟨hsegment, hsegments⟩ := List.forall_mem_cons.mp hs
    obtain ⟨hback, hfits, hcoded⟩ := ih (hb.add_ahead hsegment) hsegments
    refine ⟨?_, hfits, List.forall_mem_cons.mpr ⟨hb.coded hsegment, hcoded⟩⟩
    simp only [stepsOf, segmentsOf, hback, hb.follow_ahead hsegment]

theorem stepsToLines_linesToSteps {base : Base} {lines : List (List (Segment Nat))} (hb : base.Fits)
    (hs : ∀ line ∈ lines, ∀ segment ∈ line, Fits segment) :
    stepsToLines base (linesToSteps base lines) = lines ∧
      ∀ steps ∈ linesToSteps base lines, ∀ step ∈ steps, Coded step := by
  induction lines generalizing base with
  | nil => exact ⟨rfl, by simp [linesToSteps]⟩
  | cons line lines ih =>
    obtain ⟨hline, hlines⟩ := List.forall_mem_cons.mp hs
    obtain ⟨hback, hfits, hcoded⟩ := segmentsOf_stepsOf hb.newLine hline
    obtain ⟨hrest, hcoded'⟩ := ih hfits hlines
    refine ⟨?_, List.forall_mem_cons.mpr ⟨hcoded, hcoded'⟩⟩
    simp only [linesToSteps, stepsToLines, hback, hrest]

/-! ## Text -/

theorem digit_spelling (value : Nat) :
    Vlq.digit value ≠ ';' ∧ Vlq.digit value ≠ ',' := by
  have hall : ('A' :: Vlq.alphabet).all (fun c => c != ';' && c != ',') = true := by decide
  simp only [List.all_eq_true, Bool.and_eq_true, bne_iff_ne] at hall
  refine hall _ ?_
  rw [Vlq.digit]
  cases h : Vlq.alphabet[value]? with
  | none => exact List.mem_cons_self
  | some c => exact List.mem_cons_of_mem _ (List.mem_of_getElem? h)

/-- The text of a number holds no separators. -/
theorem digits_spelling (code : Nat) : ∀ c ∈ Vlq.digits code, c ≠ ';' ∧ c ≠ ',' := by
  induction code using Vlq.digits.induct with
  | case1 code h =>
    rw [Vlq.digits, if_pos h]
    exact List.forall_mem_singleton.mpr (digit_spelling code)
  | case2 code h ih =>
    rw [Vlq.digits, if_neg h]
    exact List.forall_mem_cons.mpr ⟨digit_spelling _, ih⟩

theorem stepText_spelling (step : Segment Int) : ∀ c ∈ stepText step, c ≠ ';' ∧ c ≠ ',' := by
  intro c hc
  obtain ⟨field, -, hc⟩ := List.mem_flatMap.mp hc
  exact digits_spelling _ c hc

theorem encode_ne_nil (field : Int) : Vlq.encode field ≠ [] := by
  rw [Vlq.encode, Vlq.digits]
  split <;> simp

theorem stepText_ne_nil (step : Segment Int) : stepText step ≠ [] := by
  simp [stepText, fieldsOf, encode_ne_nil]

theorem numbers_nil : numbers [] = .ok [] := by
  rw [numbers.eq_def, if_pos List.isEmpty_nil]

/-- A number that can be read stands before the others. -/
theorem numbers_of_read {text rest : List Char} {number : Int} (h : Vlq.read text = .ok (number, rest)) :
    numbers text = (numbers rest).map (number :: ·) := by
  have hne : text ≠ [] := List.ne_nil_of_length_pos (Nat.zero_lt_of_lt (Vlq.length_read h))
  rw [numbers.eq_def, if_neg (by simpa using hne)]
  split <;> rename_i h' _ <;> cases h.symm.trans h'
  rfl

/-- Where no number can be read there are none. -/
theorem numbers_of_fault {text : List Char} {fault : MapFault} (hne : text ≠ [])
    (h : Vlq.read text = .error fault) : numbers text = .error fault := by
  rw [numbers.eq_def, if_neg (by simpa using hne)]
  split <;> rename_i h' _ <;> cases h.symm.trans h'
  rfl

theorem numbers_encode {field : Int} (h : 2 * field.natAbs < Vlq.codes) (rest : List Char) :
    numbers (Vlq.encode field ++ rest) = (numbers rest).map (field :: ·) :=
  numbers_of_read (Vlq.read_encode h rest)

theorem numbers_flatMap {fields : List Int} (h : ∀ field ∈ fields, 2 * field.natAbs < Vlq.codes) :
    numbers (fields.flatMap Vlq.encode) = .ok fields := by
  induction fields with
  | nil => exact numbers_nil
  | cons field fields ih =>
    obtain ⟨hfield, hfields⟩ := List.forall_mem_cons.mp h
    rw [List.flatMap_cons, numbers_encode hfield, ih hfields]
    rfl

theorem stepOf_stepText {step : Segment Int} (h : Coded step) : stepOf (stepText step) = .ok step := by
  rw [stepOf, stepText, numbers_flatMap h]
  exact ofFields_fieldsOf step

/-- The text of the differences of a line. -/
def lineText (steps : List (Segment Int)) : List Char :=
  Text.joinWith ',' (steps.map stepText)

/-- **The text of the differences of a line is read back.** -/
theorem lineOf_text {steps : List (Segment Int)} (h : ∀ step ∈ steps, Coded step) :
    lineOf (lineText steps) = .ok steps := by
  by_cases hne : steps = []
  · subst hne
    rfl
  · have hpieces : Text.splitOn ',' (lineText steps) = steps.map stepText :=
      Text.splitOn_joinWith (fun piece hp hc => by
        obtain ⟨step, -, rfl⟩ := List.mem_map.mp hp
        exact (stepText_spelling step _ hc).2 rfl) (by simpa using hne)
    have hfilter : (steps.map stepText).filter (fun piece => !piece.isEmpty) = steps.map stepText :=
      List.filter_eq_self.mpr fun piece hp => by
        obtain ⟨step, -, rfl⟩ := List.mem_map.mp hp
        simp [stepText_ne_nil]
    rw [lineOf, hpieces, hfilter, mapM_map_eq_ok fun step hm => stepOf_stepText (h step hm)]

theorem lineText_spelling (steps : List (Segment Int)) : ';' ∉ lineText steps := by
  intro h
  rcases Text.mem_joinWith h with hc | ⟨piece, hp, hc⟩
  · exact absurd hc (by decide)
  · obtain ⟨step, -, rfl⟩ := List.mem_map.mp hp
    exact (stepText_spelling step _ hc).1 rfl

/-- The lines of a text are read as differences, which are added up behind that. -/
theorem decode_eq_map (text : List Char) :
    decode text = ((Text.splitOn ';' text).mapM lineOf).map (stepsToLines .zero) := by
  rw [decode]
  cases (Text.splitOn ';' text).mapM lineOf <;> rfl

/-- **The text of some lines is read back.** -/
theorem decode_encode {lines : List (List (Segment Nat))} (hne : lines ≠ [])
    (h : ∀ line ∈ lines, ∀ segment ∈ line, Fits segment) : decode (encode lines) = .ok lines := by
  obtain ⟨hback, hcoded⟩ := stepsToLines_linesToSteps Base.fits_zero h
  have hsteps : linesToSteps .zero lines ≠ [] := by
    cases lines with
    | nil => exact absurd rfl hne
    | cons => simp [linesToSteps]
  have hpieces : Text.splitOn ';' (encode lines) = (linesToSteps .zero lines).map lineText :=
    Text.splitOn_joinWith (fun piece hp => by
      obtain ⟨steps, -, rfl⟩ := List.mem_map.mp hp
      exact lineText_spelling steps) (by simpa using hsteps)
  rw [decode_eq_map, hpieces, mapM_map_eq_ok fun steps hm => lineOf_text (hcoded steps hm)]
  exact congrArg _ hback

end DeferredLog.Mappings
