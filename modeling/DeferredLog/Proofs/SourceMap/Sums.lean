import Mathlib.Data.List.Infix
import DeferredLog.Proofs.SourceMap.Reachable

/-!
# The sums of mappings

Reading mappings adds up differences in sums of 64 bits. A difference can be almost as large as such a
sum, so a text of three segments can take a sum out of its range, where it goes on at the other end. As
long as that does not happen the sums are exact, and it does not in a text whose numbers are short
compared with its length.

* `Vlq.exists_run_of_read`: how large a number can be, by its digits.
* `Mappings.readings`: the sums that reading a text holds, by any way of adding.
* `Mappings.readLines_eq_iff`: the sums are exact up to the end exactly if none leaves its range.
* `Mappings.staysInRange_of_short`: none does in a text of short numbers.
* `Mappings.decode_exact`: what is read is what the exact sums lead to.
* `Mappings.not_forall_staysInRange`: a text of three segments where it is not.
-/

namespace DeferredLog

namespace Vlq

/-! ## The size of a number -/

/-- A digit that says that another one follows. -/
def Continues (c : Char) : Prop :=
  ∃ d ∈ digitValue? c, 32 ≤ d

instance (c : Char) : Decidable (Continues c) :=
  match h : digitValue? c with
  | none => .isFalse (by simp [Continues, h])
  | some d => decidable_of_iff (32 ≤ d) (by simp [Continues, h])

theorem codes_eq : codes = 18446744073709551616 := rfl

/-- The number of codes that some digits can spell. -/
def codesOf (digits : Nat) : Nat := Nat.pow 32 digits

theorem codesOf_succ (digits : Nat) : codesOf (digits + 1) = codesOf digits * 32 := rfl

theorem codesOf_le {digits more : Nat} (h : digits ≤ more) : codesOf digits ≤ codesOf more :=
  Nat.pow_le_pow_right (by decide) h

theorem digitValue?_lt {c : Char} {d : Nat} (h : digitValue? c = some d) : d < 64 := by
  have hlength : alphabet.length = 64 := by decide +kernel
  obtain ⟨hlt, -⟩ := List.findIdx?_eq_some_iff_getElem.mp h
  exact hlength ▸ hlt

/-- A number is read off digits that say that another one follows, and one that does not. -/
theorem exists_run_of_readCode {text rest : List Char} {code : Nat}
    (h : readCode text = .ok (code, rest)) : ∃ run last, text = run ++ last :: rest ∧
      (∀ c ∈ run, Continues c) ∧ code < codesOf (run.length + 1) := by
  induction text generalizing code with
  | nil => cases h
  | cons c cs ih =>
    rw [readCode] at h
    split at h
    · cases h
    · rename_i d hd
      split at h
      · rename_i hlt
        cases h
        exact ⟨[], c, rfl, fun _ hm => absurd hm List.not_mem_nil, hlt⟩
      · rename_i hge
        cases hr : readCode cs with
        | error fault =>
          rw [hr] at h
          cases h
        | ok found =>
          rw [hr] at h
          cases h
          obtain ⟨run, last, rfl, hrun, hcode⟩ := ih hr
          have hlt := digitValue?_lt hd
          have hc : Continues c := ⟨d, hd, Nat.le_of_not_lt hge⟩
          refine ⟨c :: run, last, rfl, List.forall_mem_cons.mpr ⟨hc, hrun⟩, ?_⟩
          rw [List.length_cons, codesOf_succ]
          omega

theorem natAbs_value (code : Nat) : 2 * (value code).natAbs ≤ code := by
  rw [value]
  split <;> omega

/-- **How large a number can be**: it has five bits for each digit, one of them for the sign. -/
theorem exists_run_of_read {text rest : List Char} {number : Int}
    (h : read text = .ok (number, rest)) : ∃ run last, text = run ++ last :: rest ∧
      (∀ c ∈ run, Continues c) ∧ 2 * number.natAbs < codesOf (run.length + 1) := by
  cases hr : readCode text with
  | error fault =>
    rw [read, hr] at h
    cases h
  | ok found =>
    rw [read, hr] at h
    cases h
    obtain ⟨run, last, rfl, hrun, hcode⟩ := exists_run_of_readCode hr
    have hvalue := natAbs_value (found.1 % codes)
    have hle := Nat.mod_le found.1 codes
    exact ⟨run, last, rfl, hrun, by omega⟩

end Vlq

namespace Mappings

/-! ## Sums by any way of adding -/

/-- A sum is within the range of 64 bits. -/
def InRange (sum : Int) : Prop :=
  -9223372036854775808 ≤ sum ∧ sum < 9223372036854775808

instance (sum : Int) : Decidable (InRange sum) :=
  inferInstanceAs (Decidable (_ ∧ _))

/-- A sum of 64 bits is exact as long as it is in range. -/
theorem sum_eq_iff {field step : Int} : Base.sum field step = field + step ↔ InRange (field + step) := by
  have hpow : (Nat.pow 2 64 : Int) = 18446744073709551616 := rfl
  rw [Base.sum, InRange]
  constructor
  · intro h
    have hlow := Int.le_bmod (x := field + step) (m := Nat.pow 2 64) (by decide)
    have hhigh := Int.bmod_lt (x := field + step) (m := Nat.pow 2 64) (by decide)
    omega
  · rintro ⟨hlow, hhigh⟩
    exact Int.bmod_eq_of_le (by omega) (by omega)

namespace Base

/-- The base with the differences of a segment added in some way. -/
def addBy (plus : Int → Int → Int) (base : Base) (step : Segment Int) : Base :=
  let base := { base with column := plus base.column step.column }
  match step.origin with
  | none => base
  | some origin =>
    { base with
      source := plus base.source origin.source
      sourceLine := plus base.sourceLine origin.line
      sourceColumn := plus base.sourceColumn origin.column
      name := plus base.name (origin.name.getD 0) }

theorem addBy_sum (base : Base) (step : Segment Int) : base.addBy sum step = base.add step := rfl

/-- The sums of a base. -/
def fields (base : Base) : List Int :=
  [base.column, base.source, base.sourceLine, base.sourceColumn, base.name]

/-- Each sum is in range. -/
def InRange (base : Base) : Prop :=
  ∀ field ∈ base.fields, Mappings.InRange field

instance (base : Base) : Decidable base.InRange :=
  inferInstanceAs (Decidable (∀ field ∈ base.fields, Mappings.InRange field))

theorem inRange_iff {base : Base} : base.InRange ↔ Mappings.InRange base.column ∧
    Mappings.InRange base.source ∧ Mappings.InRange base.sourceLine ∧
    Mappings.InRange base.sourceColumn ∧ Mappings.InRange base.name := by
  simp [InRange, fields]

theorem inRange_zero : zero.InRange := by decide

theorem InRange.newLine {base : Base} (h : base.InRange) : base.newLine.InRange := by
  rw [inRange_iff] at *
  exact ⟨inRange_iff.mp inRange_zero |>.1, h.2⟩

/-- **One step is exact exactly if it leads to sums in range.** -/
theorem addBy_sum_eq_iff {base : Base} (h : base.InRange) (step : Segment Int) :
    base.addBy sum step = base.addBy (· + ·) step ↔ (base.addBy (· + ·) step).InRange := by
  obtain ⟨column, origin⟩ := step
  rw [inRange_iff] at *
  cases origin with
  | none => simp [addBy, sum_eq_iff, h.2]
  | some origin => simp [addBy, sum_eq_iff]

end Base

/-- The sums behind each segment of a line, the segments with them, and the sums behind the line. -/
def readSteps (plus : Int → Int → Int) (base : Base) :
    List (Segment Int) → List (Base × Segment Nat) × Base
  | [] => ([], base)
  | step :: steps =>
    let next := base.addBy plus step
    ((next, next.segment step) :: (readSteps plus next steps).1, (readSteps plus next steps).2)

/-- The sums behind each segment of some lines, and the segments with them. -/
def readLines (plus : Int → Int → Int) (base : Base) :
    List (List (Segment Int)) → List (List (Base × Segment Nat))
  | [] => []
  | steps :: rest =>
    let line := readSteps plus base.newLine steps
    line.1 :: readLines plus line.2 rest

theorem segmentsOf_eq (base : Base) (steps : List (Segment Int)) : segmentsOf base steps =
    ((readSteps Base.sum base steps).1.map (·.2), (readSteps Base.sum base steps).2) := by
  induction steps generalizing base with
  | nil => rfl
  | cons step steps ih =>
    rw [segmentsOf, ih, readSteps, Base.addBy_sum]
    rfl

theorem stepsToLines_eq (base : Base) (lines : List (List (Segment Int))) :
    stepsToLines base lines = (readLines Base.sum base lines).map (·.map (·.2)) := by
  induction lines generalizing base with
  | nil => rfl
  | cons steps lines ih => simp only [stepsToLines, segmentsOf_eq, ih, readLines, List.map_cons]

variable {base : Base} {steps : List (Segment Int)} {lines : List (List (Segment Int))}

/-- As long as the exact sums of a line stay in range they are the ones that are held. -/
theorem readSteps_eq_of_inRange (hb : base.InRange)
    (h : ∀ reading ∈ (readSteps (· + ·) base steps).1, reading.1.InRange) :
    readSteps Base.sum base steps = readSteps (· + ·) base steps ∧
      (readSteps (· + ·) base steps).2.InRange := by
  induction steps generalizing base with
  | nil => exact ⟨rfl, hb⟩
  | cons step steps ih =>
    obtain ⟨hnext, hrest⟩ := List.forall_mem_cons.mp h
    obtain ⟨hsame, hlast⟩ := ih hnext hrest
    refine ⟨?_, hlast⟩
    rw [readSteps, (Base.addBy_sum_eq_iff hb step).mpr hnext, hsame]
    rfl

/-- Sums of a line that are held exactly are in range. -/
theorem inRange_of_readSteps_eq (hb : base.InRange)
    (h : (readSteps Base.sum base steps).1 = (readSteps (· + ·) base steps).1) :
    ∀ reading ∈ (readSteps (· + ·) base steps).1, reading.1.InRange := by
  induction steps generalizing base with
  | nil => exact fun _ hm => absurd hm List.not_mem_nil
  | cons step steps ih =>
    obtain ⟨hhead, htail⟩ := List.cons.inj h
    have hsame := (Prod.mk.inj hhead).1
    have hnext := (Base.addBy_sum_eq_iff hb step).mp hsame
    rw [hsame] at htail
    exact List.forall_mem_cons.mpr ⟨hnext, ih hnext htail⟩

theorem readLines_eq_of_inRange (hb : base.InRange)
    (h : ∀ line ∈ readLines (· + ·) base lines, ∀ reading ∈ line, reading.1.InRange) :
    readLines Base.sum base lines = readLines (· + ·) base lines := by
  induction lines generalizing base with
  | nil => rfl
  | cons steps lines ih =>
    obtain ⟨hfirst, hrest⟩ := List.forall_mem_cons.mp h
    obtain ⟨hsame, hlast⟩ := readSteps_eq_of_inRange hb.newLine hfirst
    simp only [readLines, hsame, ih hlast hrest]

/-- **The sums of some lines are exact exactly if none leaves its range.** -/
theorem readLines_eq_iff (hb : base.InRange) :
    readLines Base.sum base lines = readLines (· + ·) base lines ↔
      ∀ line ∈ readLines (· + ·) base lines, ∀ reading ∈ line, reading.1.InRange := by
  refine ⟨fun h => ?_, readLines_eq_of_inRange hb⟩
  induction lines generalizing base with
  | nil => exact fun _ hm => absurd hm List.not_mem_nil
  | cons steps lines ih =>
    obtain ⟨hhead, htail⟩ := List.cons.inj h
    have hfirst := inRange_of_readSteps_eq hb.newLine hhead
    obtain ⟨hsame, hlast⟩ := readSteps_eq_of_inRange hb.newLine hfirst
    rw [hsame] at htail
    exact List.forall_mem_cons.mpr ⟨hfirst, ih hlast htail⟩

/-! ## The sums of a text -/

/-- The pieces of a line that hold segments. -/
def piecesOf (line : List Char) : List (List Char) :=
  (Text.splitOn ',' line).filter fun piece => !piece.isEmpty

/-- The differences that are added up of some pieces, up to the first fault. Of a piece with a number of
fields that means nothing the column is still added. -/
def addedOf : List (List Char) → List (Segment Int)
  | [] => []
  | piece :: pieces =>
    match numbers piece with
    | .error _ => []
    | .ok fields =>
      match ofFields fields with
      | .error _ => [⟨fields.headD 0, none⟩]
      | .ok step => step :: addedOf pieces

/-- The differences that are added up of some lines, up to the first fault. -/
def addedLines : List (List Char) → List (List (Segment Int))
  | [] => []
  | line :: lines =>
    addedOf (piecesOf line) ::
      match lineOf line with
      | .error _ => []
      | .ok _ => addedLines lines

/-- The sums that reading a text holds behind each piece, up to the first fault, by some way of adding. -/
def readings (plus : Int → Int → Int) (text : List Char) : List (List (Base × Segment Nat)) :=
  readLines plus .zero (addedLines (Text.splitOn ';' text))

/-- The segments of a map, from their text, by some way of adding. -/
def decodeBy (plus : Int → Int → Int) (text : List Char) :
    Except MapFault (List (List (Segment Nat))) :=
  ((Text.splitOn ';' text).mapM lineOf).map fun lines =>
    (readLines plus .zero lines).map (·.map (·.2))

/-- No exact sum of a text leaves its range, at any step. -/
def StaysInRange (text : List Char) : Prop :=
  ∀ line ∈ readings (· + ·) text, ∀ reading ∈ line, reading.1.InRange

instance (text : List Char) : Decidable (StaysInRange text) :=
  inferInstanceAs (Decidable (∀ line ∈ readings (· + ·) text, ∀ reading ∈ line, reading.1.InRange))

theorem decode_eq (text : List Char) : decode text = decodeBy Base.sum text := by
  rw [decode_eq_map, decodeBy]
  exact congrArg (Except.map · _) (funext (stepsToLines_eq .zero))

theorem addedOf_of_mapM {pieces : List (List Char)} (h : pieces.mapM stepOf = .ok steps) :
    addedOf pieces = steps := by
  rw [mapM_eq_ok_iff] at h
  induction h with
  | nil => rfl
  | cons hstep _ ih =>
    obtain ⟨fields, hfields, hstep⟩ := exists_of_bind hstep
    simp only [addedOf, hfields, hstep, ih]

/-- Where there is no fault all the differences are added up. -/
theorem addedLines_of_mapM {texts : List (List Char)} (h : texts.mapM lineOf = .ok lines) :
    addedLines texts = lines := by
  rw [mapM_eq_ok_iff] at h
  induction h with
  | nil => rfl
  | cons hline _ ih =>
    simp only [addedLines, addedOf_of_mapM (show (piecesOf _).mapM stepOf = _ from hline), hline, ih]

/-- **As long as the sums stay in range** a text is read as by exact sums. -/
theorem StaysInRange.decode_eq {text : List Char} (h : StaysInRange text) :
    decode text = decodeBy (· + ·) text := by
  rw [Mappings.decode_eq, decodeBy, decodeBy]
  cases hlines : (Text.splitOn ';' text).mapM lineOf with
  | error fault => rfl
  | ok lines =>
    have hsame := readLines_eq_of_inRange Base.inRange_zero h
    rw [addedLines_of_mapM hlines] at hsame
    simp only [Except.map, hsame]

/-! ## Short numbers -/

theorem fieldsOf_of_ofFields {fields : List Int} {step : Segment Int}
    (h : ofFields fields = .ok step) : fieldsOf step = fields := by
  unfold ofFields at h
  split at h <;> cases h <;> rfl

/-- Every number that is read off a text is as long as some digits of the text. -/
theorem exists_run_of_numbers {text : List Char} {fields : List Int} (h : numbers text = .ok fields) :
    ∀ field ∈ fields, ∃ run, run <:+: text ∧ (∀ c ∈ run, Vlq.Continues c) ∧
      2 * field.natAbs < Vlq.codesOf (run.length + 1) := by
  induction hn : text.length using Nat.strongRecOn generalizing text fields with
  | ind n ih =>
    rw [numbers.eq_def] at h
    split at h
    · cases h
      exact fun _ hm => absurd hm List.not_mem_nil
    · split at h
      · cases h
      · rename_i number rest _ hread _
        cases hr : numbers rest with
        | error fault =>
          rw [hr] at h
          cases h
        | ok found =>
          rw [hr] at h
          cases h
          obtain ⟨run, last, rfl, hrun, hlt⟩ := Vlq.exists_run_of_read hread
          refine List.forall_mem_cons.mpr ⟨⟨run, List.infix_append' [] run _, hrun, hlt⟩, ?_⟩
          intro field hm
          obtain ⟨other, hother, hcontinues, hfield⟩ :=
            ih rest.length (by rw [← hn]; exact Vlq.length_read hread) hr rfl field hm
          exact ⟨other, hother.trans ((List.suffix_append (run ++ [last]) rest).isInfix.trans
            (by simp)), hcontinues, hfield⟩

/-- Fewer digits than the given number say in a row that another one follows. -/
def Short (digits : Nat) (text : List Char) : Prop :=
  ∀ run, run <:+: text → (∀ c ∈ run, Vlq.Continues c) → run.length < digits

variable {digits limit bound : Nat} {text : List Char}

/-- It is enough to look at what continues from each character on. -/
theorem short_iff : Short digits text ↔
    ∀ tail ∈ text.tails, (tail.takeWhile fun c => Vlq.Continues c).length < digits := by
  simp only [List.mem_tails]
  constructor
  · intro h tail ht
    refine h _ ((List.takeWhile_prefix _).isInfix.trans ht.isInfix) fun c hc => ?_
    exact of_decide_eq_true (List.all_eq_true.mp List.all_takeWhile c hc)
  · intro h run hr hrun
    obtain ⟨tail, ⟨rest, rfl⟩, ht⟩ := List.infix_iff_prefix_suffix.mp hr
    have hlt := h _ ht
    rw [List.takeWhile_append_of_pos fun c hc => decide_eq_true (hrun c hc), List.length_append] at hlt
    omega

instance : Decidable (Short digits text) :=
  decidable_of_iff' _ short_iff

theorem Short.of_infix {part : List Char} (h : Short digits text) (hp : part <:+: text) :
    Short digits part :=
  fun run hr hrun => h run (hr.trans hp) hrun

theorem Short.numbers (h : Short digits text) {fields : List Int}
    (hn : numbers text = .ok fields) : ∀ field ∈ fields, 2 * field.natAbs < Vlq.codesOf digits := by
  intro field hm
  obtain ⟨run, hr, hrun, hlt⟩ := exists_run_of_numbers hn field hm
  exact Nat.lt_of_lt_of_le hlt (Vlq.codesOf_le (h run hr hrun))

/-- The doubles of all differences of a segment are at most a limit. -/
def Limited (limit : Nat) (step : Segment Int) : Prop :=
  ∀ field ∈ fieldsOf step, 2 * field.natAbs ≤ limit

/-- The doubles of all sums of a base are at most a limit. -/
def Base.Within (limit : Nat) (base : Base) : Prop :=
  ∀ field ∈ base.fields, 2 * field.natAbs ≤ limit

theorem Base.Within.mono (h : base.Within limit) (hle : limit ≤ bound) :
    base.Within bound :=
  fun field hm => Nat.le_trans (h field hm) hle

theorem Base.within_iff : base.Within limit ↔ 2 * base.column.natAbs ≤ limit ∧
    2 * base.source.natAbs ≤ limit ∧ 2 * base.sourceLine.natAbs ≤ limit ∧
    2 * base.sourceColumn.natAbs ≤ limit ∧ 2 * base.name.natAbs ≤ limit := by
  simp [Within, fields]

theorem Base.within_zero : Base.zero.Within 0 := by
  simp [within_iff, zero]

theorem Base.Within.newLine (h : base.Within limit) : base.newLine.Within limit := by
  rw [within_iff] at *
  exact ⟨Nat.zero_le _, h.2⟩

theorem Base.Within.inRange (h : base.Within limit) (hlt : limit < Vlq.codes) : base.InRange := by
  intro field hm
  have hfield := h field hm
  rw [Vlq.codes_eq] at hlt
  exact ⟨by omega, by omega⟩

theorem natAbs_add_le {sum field : Int} (hs : 2 * sum.natAbs ≤ limit)
    (hf : 2 * field.natAbs ≤ bound) : 2 * (sum + field).natAbs ≤ limit + bound := by
  omega

theorem Limited.name {step : Segment Int} (h : Limited bound step) :
    ∀ origin ∈ step.origin, 2 * (origin.name.getD 0).natAbs ≤ bound := by
  obtain ⟨column, origin⟩ := step
  rintro ⟨source, line, sourceColumn, name⟩ ⟨⟩
  cases name with
  | none => exact Nat.zero_le _
  | some name => exact h name (by simp [fieldsOf])

/-- A step adds no more than its differences. -/
theorem Base.Within.addBy {step : Segment Int} (hb : base.Within limit)
    (hs : Limited bound step) : (base.addBy (· + ·) step).Within (limit + bound) := by
  have hname := hs.name
  obtain ⟨column, origin⟩ := step
  rw [within_iff] at *
  obtain ⟨h₁, h₂, h₃, h₄, h₅⟩ := hb
  have hcolumn := natAbs_add_le h₁ (hs column List.mem_cons_self)
  cases origin with
  | none =>
    exact ⟨hcolumn, Nat.le_add_right_of_le h₂, Nat.le_add_right_of_le h₃, Nat.le_add_right_of_le h₄,
      Nat.le_add_right_of_le h₅⟩
  | some origin =>
    exact ⟨hcolumn, natAbs_add_le h₂ (hs origin.source (by simp [fieldsOf])),
      natAbs_add_le h₃ (hs origin.line (by simp [fieldsOf])),
      natAbs_add_le h₄ (hs origin.column (by simp [fieldsOf])),
      natAbs_add_le h₅ (hname origin rfl)⟩

/-- After some steps the sums have grown by a difference for each at most. -/
theorem within_readSteps (hb : base.Within limit)
    (hs : ∀ step ∈ steps, Limited bound step) :
    (readSteps (· + ·) base steps).2.Within (limit + bound * steps.length) ∧
      ∀ reading ∈ (readSteps (· + ·) base steps).1,
        reading.1.Within (limit + bound * steps.length) := by
  induction steps generalizing base limit with
  | nil => exact ⟨hb, fun _ hm => absurd hm List.not_mem_nil⟩
  | cons step steps ih =>
    obtain ⟨hstep, hsteps⟩ := List.forall_mem_cons.mp hs
    obtain ⟨hlast, hreadings⟩ := ih (hb.addBy hstep) hsteps
    have hlength : limit + bound * (step :: steps).length =
        limit + bound + bound * steps.length := by
      rw [List.length_cons, Nat.mul_add]
      omega
    rw [hlength]
    refine ⟨hlast, List.forall_mem_cons.mpr ⟨?_, hreadings⟩⟩
    exact (hb.addBy hstep).mono (Nat.le_add_right ..)

theorem within_readLines (hb : base.Within limit)
    (hs : ∀ steps ∈ lines, ∀ step ∈ steps, Limited bound step) :
    ∀ line ∈ readLines (· + ·) base lines, ∀ reading ∈ line,
      reading.1.Within (limit + bound * lines.flatten.length) := by
  induction lines generalizing base limit with
  | nil => exact fun _ hm => absurd hm List.not_mem_nil
  | cons steps lines ih =>
    obtain ⟨hsteps, hlines⟩ := List.forall_mem_cons.mp hs
    obtain ⟨hlast, hreadings⟩ := within_readSteps hb.newLine hsteps
    have hlength : limit + bound * (steps :: lines).flatten.length =
        limit + bound * steps.length + bound * lines.flatten.length := by
      rw [List.flatten_cons, List.length_append, Nat.mul_add, Nat.add_assoc]
    rw [hlength]
    refine List.forall_mem_cons.mpr ⟨fun reading hm => ?_, ih hlast hlines⟩
    exact (hreadings reading hm).mono (Nat.le_add_right ..)

/-- Every difference of short pieces is limited. -/
theorem limited_of_addedOf {pieces : List (List Char)} (h : ∀ piece ∈ pieces, Short digits piece) :
    ∀ step ∈ addedOf pieces, Limited (Vlq.codesOf digits) step := by
  induction pieces with
  | nil => exact fun _ hm => absurd hm List.not_mem_nil
  | cons piece pieces ih =>
    obtain ⟨hpiece, hpieces⟩ := List.forall_mem_cons.mp h
    rw [addedOf]
    split
    · exact fun _ hm => absurd hm List.not_mem_nil
    · rename_i fields hfields
      have hshort := fun field hm => Nat.le_of_lt (hpiece.numbers hfields field hm)
      split
      · refine List.forall_mem_singleton.mpr (List.forall_mem_singleton.mpr ?_)
        cases fields with
        | nil => exact Nat.zero_le _
        | cons field fields => exact hshort field List.mem_cons_self
      · rename_i step hstep
        refine List.forall_mem_cons.mpr ⟨?_, ih hpieces⟩
        rw [Limited, fieldsOf_of_ofFields hstep]
        exact hshort

theorem length_addedOf (pieces : List (List Char)) : (addedOf pieces).length ≤ pieces.length := by
  induction pieces with
  | nil => exact Nat.le_refl _
  | cons piece pieces ih =>
    rw [addedOf]
    split
    · exact Nat.zero_le _
    · split
      · exact Nat.succ_le_succ (Nat.zero_le _)
      · exact Nat.succ_le_succ ih

theorem length_filter_le (pieces : List (List Char)) :
    (pieces.filter fun piece => !piece.isEmpty).length ≤ pieces.flatten.length := by
  induction pieces with
  | nil => exact Nat.le_refl _
  | cons piece pieces ih =>
    rw [List.filter_cons, List.flatten_cons, List.length_append]
    split
    · rename_i hne
      have hlength : 0 < piece.length := by simpa [List.length_pos_iff] using hne
      rw [List.length_cons]
      omega
    · omega

/-- A line leads to no more steps than it has characters. -/
theorem length_addedOf_piecesOf (line : List Char) : (addedOf (piecesOf line)).length ≤ line.length :=
  calc (addedOf (piecesOf line)).length
    _ ≤ (piecesOf line).length := length_addedOf _
    _ ≤ (Text.splitOn ',' line).flatten.length := length_filter_le _
    _ ≤ line.length := Text.length_flatten_splitOn ',' line

theorem length_addedLines (texts : List (List Char)) :
    (addedLines texts).flatten.length ≤ texts.flatten.length := by
  induction texts with
  | nil => exact Nat.le_refl _
  | cons text texts ih =>
    have hline := length_addedOf_piecesOf text
    rw [addedLines, List.flatten_cons, List.length_append, List.flatten_cons, List.length_append]
    split
    · rw [List.flatten_nil, List.length_nil]
      omega
    · omega

theorem limited_of_addedLines {texts : List (List Char)} (h : ∀ text ∈ texts, Short digits text) :
    ∀ steps ∈ addedLines texts, ∀ step ∈ steps, Limited (Vlq.codesOf digits) step := by
  induction texts with
  | nil => exact fun _ hm => absurd hm List.not_mem_nil
  | cons text texts ih =>
    obtain ⟨htext, htexts⟩ := List.forall_mem_cons.mp h
    have hpieces : ∀ piece ∈ piecesOf text, Short digits piece := fun piece hm =>
      htext.of_infix (Text.infix_of_mem_splitOn (List.mem_filter.mp hm).1)
    rw [addedLines]
    refine List.forall_mem_cons.mpr ⟨limited_of_addedOf hpieces, ?_⟩
    split
    · exact fun _ hm => absurd hm List.not_mem_nil
    · exact ih htexts

/-- **In a text of short numbers no sum leaves its range**: it is at most the greatest number that is as
short, for each character of the text. -/
theorem staysInRange_of_short (h : Short digits text)
    (hlt : Vlq.codesOf digits * text.length < Vlq.codes) : StaysInRange text := by
  intro line hl reading hr
  have hlines : ∀ line ∈ Text.splitOn ';' text, Short digits line := fun line hm =>
    h.of_infix (Text.infix_of_mem_splitOn hm)
  have hwithin := within_readLines Base.within_zero (limited_of_addedLines hlines) line hl reading hr
  have hlength := Nat.le_trans (length_addedLines _) (Text.length_flatten_splitOn ';' text)
  refine (hwithin.mono ?_).inRange hlt
  rw [Nat.zero_add]
  exact Nat.mul_le_mul_left _ hlength

/-- **What is read is what the exact sums lead to**, as long as each of them is in the range of 64 bits.
The sums are exact at every step exactly if that is so, and it is so for a text of short numbers. In
whatever way the sums are taken, they have no part in whether a text is read at all. -/
theorem decode_exact (text : List Char) :
    (readings Base.sum text = readings (· + ·) text ↔ StaysInRange text) ∧
    (StaysInRange text → decode text = decodeBy (· + ·) text) ∧
    (∀ digits, Short digits text → Vlq.codesOf digits * text.length < Vlq.codes → StaysInRange text) ∧
    (∀ plus fault, decode text = .error fault ↔ decodeBy plus text = .error fault) ∧
    ∀ source json map, Json.parse? source = some json →
      json.get? "mappings" = some (.string (String.ofList text)) → SourceMap.parse source = .ok map →
      StaysInRange text → decodeBy (· + ·) text = .ok map.lines := by
  refine ⟨readLines_eq_iff Base.inRange_zero, StaysInRange.decode_eq,
    fun _ h => staysInRange_of_short h, fun plus fault => ?_, ?_⟩
  · rw [decode_eq, decodeBy, decodeBy]
    cases (Text.splitOn ';' text).mapM lineOf <;> simp [Except.map]
  · intro source json map hjson hmappings hparse h
    obtain ⟨json', mappings, hjson', hmappings', hdecode⟩ := SourceMap.exists_decode_of_parse hparse
    rw [hjson] at hjson'
    cases hjson'
    rw [hmappings] at hmappings'
    cases hmappings'
    rw [← h.decode_eq, ← hdecode, String.toList_ofList]

/-- Two lines, with a number of two digits. -/
def shortText : List Char := "AAAA,gBCAA;DACA".toList

theorem decode_exact_short :
    StaysInRange shortText ∧ decode shortText = decodeBy (· + ·) shortText := by
  obtain ⟨-, hdecode, hshort, -⟩ := decode_exact shortText
  have h := hshort 2 (by decide +kernel) (by decide +kernel)
  exact ⟨h, hdecode h⟩

/-- Two numbers of 63 bits, and seven. -/
def farText : List Char := "+///////////P,+///////////P,O".toList

/-- **Not all sums stay in range**: of three numbers that each fit the second sum is twice as large as
the greatest of 64 bits, and the third one is the column five. -/
theorem not_forall_staysInRange : (¬ ∀ text, StaysInRange text) ∧
    (decode farText).toOption = some [[⟨0, none⟩, ⟨0, none⟩, ⟨5, none⟩]] ∧
    (decodeBy (· + ·) farText).toOption = some [[⟨0, none⟩, ⟨0, none⟩, ⟨0, none⟩]] := by
  refine ⟨fun h => absurd (h farText) ?_, ?_, ?_⟩ <;> decide +kernel

end Mappings

end DeferredLog
