import DeferredLog.Proofs.SourceMap.Sums

/-!
# The grammar of mappings

Mappings are read exactly if each piece between the separators, as far as it holds anything, consists of one,
four or five numbers. There is a line for each part between semicolons and a segment for each piece that holds
something. Otherwise the first such piece that is no segment says why the mappings cannot be read.

* `Vlq.IsNumber`: the digits of one number, and `Vlq.exists_read` that they are read as one.
* `Mappings.Spells`: the texts of some numbers; `Mappings.exists_spelling` cuts any digits into them.
* `Mappings.Sound`, `Mappings.Faulty`: the pieces that are segments, and what is wrong with the others.
* `Mappings.stepOf_eq_error_iff`, `Mappings.exists_stepOf_iff`: reading a piece finds out just that.
* `Mappings.decode_grammar`: so does reading mappings, from the left.
-/

namespace DeferredLog

namespace Vlq

/-! ## The digits of a number -/

/-- A digit that says that no other one follows. -/
def Ends (c : Char) : Prop :=
  ∃ d ∈ digitValue? c, d < 32

/-- The digits of one number: some that say that another one follows, and one that does not. -/
def IsNumber (text : List Char) : Prop :=
  ∃ run last, text = run ++ [last] ∧ (∀ c ∈ run, Continues c) ∧ Ends last

variable {c : Char} {run part : List Char}

theorem digitValue?_eq_none_iff : digitValue? c = none ↔ c ∉ alphabet :=
  List.idxOf?_eq_none_iff

theorem mem_alphabet_iff : c ∈ alphabet ↔ Continues c ∨ Ends c := by
  rw [← not_iff_not, ← digitValue?_eq_none_iff, Continues, Ends]
  cases digitValue? c with
  | none => simp
  | some d => simp

/-- Digits that continue change the code that is read, and neither the rest nor a fault. -/
theorem exists_readCode_append (h : ∀ c ∈ run, Continues c) (text : List Char) : ∃ join : Nat → Nat,
    readCode (run ++ text) = (readCode text).map fun found => (join found.1, found.2) := by
  induction run with
  | nil =>
    refine ⟨id, ?_⟩
    rw [List.nil_append]
    cases readCode text <;> rfl
  | cons c run ih =>
    obtain ⟨⟨d, hd, hge⟩, hrun⟩ := List.forall_mem_cons.mp h
    obtain ⟨join, hjoin⟩ := ih hrun
    refine ⟨fun code => d - 32 + 32 * join code, ?_⟩
    rw [List.cons_append, readCode, hd]
    simp only [if_neg (Nat.not_lt.mpr hge), hjoin]
    cases readCode text <;> rfl

/-- The digits of a number are read as one. -/
theorem exists_read (h : IsNumber part) (rest : List Char) :
    ∃ number, read (part ++ rest) = .ok (number, rest) := by
  obtain ⟨run, last, rfl, hrun, d, hd, hlt⟩ := h
  obtain ⟨join, hjoin⟩ := exists_readCode_append hrun (last :: rest)
  have hlast : readCode (last :: rest) = .ok (d, rest) := by rw [readCode, hd]; exact if_pos hlt
  rw [hlast] at hjoin
  exact ⟨_, by rw [List.append_assoc, List.singleton_append, read, hjoin]; rfl⟩

/-- A character that is no digit is found out, behind digits that continue. -/
theorem read_of_notMem (hrun : ∀ c ∈ run, Continues c) (hc : c ∉ alphabet) (rest : List Char) :
    read (run ++ c :: rest) = .error (.invalidDigit c) := by
  obtain ⟨join, hjoin⟩ := exists_readCode_append hrun (c :: rest)
  have hfirst : readCode (c :: rest) = .error (.invalidDigit c) := by
    rw [readCode, digitValue?_eq_none_iff.mpr hc]
  rw [read, hjoin, hfirst]
  rfl

/-- Digits that all continue are no number. -/
theorem read_of_continues (hrun : ∀ c ∈ run, Continues c) : read run = .error .truncated := by
  obtain ⟨join, hjoin⟩ := exists_readCode_append hrun []
  rw [List.append_nil] at hjoin
  rw [read, hjoin]
  rfl

end Vlq

namespace Mappings

/-! ## Pieces -/

/-- A text consists of so many numbers. -/
def Spells (fields : Nat) (text : List Char) : Prop :=
  ∃ parts : List (List Char), text = parts.flatten ∧ parts.length = fields ∧
    ∀ part ∈ parts, Vlq.IsNumber part

/-- A piece is the text of a segment. -/
def Sound (piece : List Char) : Prop :=
  ∃ fields ∈ [1, 4, 5], Spells fields piece

/-- What is wrong with a piece that is no segment. -/
inductive Faulty : List Char → MapFault → Prop
  /-- A character is no digit, the first one. -/
  | invalidDigit {before after : List Char} {c : Char} : (∀ d ∈ before, d ∈ Vlq.alphabet) →
    c ∉ Vlq.alphabet → Faulty (before ++ c :: after) (.invalidDigit c)
  /-- All characters are digits, and the last one says that another one follows. -/
  | truncated {before : List Char} {last : Char} : (∀ d ∈ before, d ∈ Vlq.alphabet) →
    Vlq.Continues last → Faulty (before ++ [last]) .truncated
  /-- It consists of numbers, but not of as many as a segment has. -/
  | invalidSegment {piece : List Char} {fields : Nat} : Spells fields piece → fields ∉ [1, 4, 5] →
    Faulty piece (.invalidSegment fields)

variable {text piece : List Char} {fault : MapFault} {fields : Nat} {step : Segment Int}

/-- Any digits are some numbers and then digits that continue. -/
theorem exists_spelling (h : ∀ c ∈ text, c ∈ Vlq.alphabet) : ∃ fields front run, text = front ++ run ∧
    Spells fields front ∧ ∀ c ∈ run, Vlq.Continues c := by
  induction text using List.reverseRecOn with
  | nil => exact ⟨0, [], [], rfl, ⟨[], rfl, rfl, by simp⟩, by simp⟩
  | append_singleton text c ih =>
    rw [List.forall_mem_append, List.forall_mem_singleton] at h
    obtain ⟨fields, front, run, rfl, hfront, hrun⟩ := ih h.1
    rcases Vlq.mem_alphabet_iff.mp h.2 with hc | hc
    · refine ⟨fields, front, run ++ [c], List.append_assoc .., hfront, ?_⟩
      exact List.forall_mem_append.mpr ⟨hrun, List.forall_mem_singleton.mpr hc⟩
    · -- The digit ends the number that the digits before it began.
      obtain ⟨parts, rfl, rfl, hparts⟩ := hfront
      refine ⟨_, (parts ++ [run ++ [c]]).flatten, [], by simp, ⟨_, rfl, rfl, ?_⟩, by simp⟩
      exact List.forall_mem_append.mpr ⟨hparts, List.forall_mem_singleton.mpr ⟨run, c, rfl, hrun, hc⟩⟩

/-- Numbers before a text are read before those of the text. -/
theorem Spells.numbers_append (h : Spells fields piece) (text : List Char) :
    ∃ found : List Int, found.length = fields ∧ numbers (piece ++ text) = (numbers text).map (found ++ ·) := by
  obtain ⟨parts, rfl, rfl, hparts⟩ := h
  induction parts with
  | nil =>
    refine ⟨[], rfl, ?_⟩
    cases hn : numbers text <;> simp [hn, Except.map]
  | cons part parts ih =>
    obtain ⟨hpart, hparts⟩ := List.forall_mem_cons.mp hparts
    obtain ⟨found, hlength, hfound⟩ := ih hparts
    obtain ⟨number, hread⟩ := Vlq.exists_read hpart (parts.flatten ++ text)
    refine ⟨number :: found, by rw [List.length_cons, List.length_cons, hlength], ?_⟩
    rw [List.flatten_cons, List.append_assoc, numbers_of_read hread, hfound]
    cases numbers text <;> rfl

theorem Spells.exists_numbers (h : Spells fields piece) :
    ∃ found : List Int, found.length = fields ∧ numbers piece = .ok found := by
  obtain ⟨found, hlength, hfound⟩ := h.numbers_append []
  rw [List.append_nil, numbers_nil] at hfound
  exact ⟨found, hlength, by rw [hfound, Except.map, List.append_nil]⟩

/-- A text consists of a single number of numbers. -/
theorem Spells.spells_iff (h : Spells fields piece) {others : Nat} : Spells others piece ↔ others = fields := by
  constructor
  · intro h'
    obtain ⟨found, rfl, hfound⟩ := h.exists_numbers
    obtain ⟨found', rfl, hfound'⟩ := h'.exists_numbers
    rw [Except.ok.inj (hfound'.symm.trans hfound)]
  · rintro rfl
    exact h

/-- Numbers are the fields of a segment, or their number is not one that a segment has. -/
theorem exists_ofFields_or (found : List Int) :
    found.length ∈ [1, 4, 5] ∧ (∃ step, ofFields found = .ok step) ∨
      found.length ∉ [1, 4, 5] ∧ ofFields found = .error (.invalidSegment found.length) := by
  rcases found with _ | ⟨column, _ | ⟨source, _ | ⟨line, _ | ⟨sourceColumn, _ | ⟨name, _ | ⟨more, rest⟩⟩⟩⟩⟩⟩ <;>
    simp [ofFields]

/-- A piece of as many numbers as a segment has is read as one of just these fields. -/
theorem exists_stepOf (h : Spells fields piece) (hf : fields ∈ [1, 4, 5]) :
    ∃ step, stepOf piece = .ok step ∧ (fieldsOf step).length = fields := by
  obtain ⟨found, rfl, hfound⟩ := h.exists_numbers
  obtain ⟨-, step, hstep⟩ | ⟨hn, -⟩ := exists_ofFields_or found
  · refine ⟨step, ?_, by rw [fieldsOf_of_ofFields hstep]⟩
    rw [stepOf, hfound]
    exact hstep
  · exact absurd hf hn

/-- A fault behind any digits that continue is one behind any digits: the others are numbers. -/
theorem stepOf_of_fault (hdigits : ∀ d ∈ piece, d ∈ Vlq.alphabet) (hne : text ≠ [])
    (h : ∀ run, (∀ c ∈ run, Vlq.Continues c) → Vlq.read (run ++ text) = .error fault) :
    stepOf (piece ++ text) = .error fault := by
  obtain ⟨fields, front, run, rfl, hfront, hrun⟩ := exists_spelling hdigits
  obtain ⟨found, -, hfound⟩ := hfront.numbers_append (run ++ text)
  rw [numbers_of_fault (List.append_ne_nil_of_right_ne_nil run hne) (h run hrun)] at hfound
  rw [stepOf, List.append_assoc, hfound]
  rfl

/-- What is wrong with a piece is the fault of reading it. -/
theorem Faulty.stepOf_eq (h : Faulty piece fault) : stepOf piece = .error fault := by
  cases h with
  | invalidDigit hbefore hc =>
    exact stepOf_of_fault hbefore (by simp) fun run hrun => Vlq.read_of_notMem hrun hc _
  | truncated hbefore hlast =>
    exact stepOf_of_fault hbefore (by simp) fun run hrun => Vlq.read_of_continues
      (List.forall_mem_append.mpr ⟨hrun, List.forall_mem_singleton.mpr hlast⟩)
  | invalidSegment hspells hfields =>
    obtain ⟨found, rfl, hfound⟩ := hspells.exists_numbers
    obtain ⟨hf, -⟩ | ⟨-, hfault⟩ := exists_ofFields_or found
    · exact absurd hf hfields
    · rw [stepOf, hfound]
      exact hfault

/-- A piece is a segment, or something is wrong with it. -/
theorem sound_or_faulty (piece : List Char) : Sound piece ∨ ∃ fault, Faulty piece fault := by
  cases hfind : piece.find? (· ∉ Vlq.alphabet) with
  | some c =>
    obtain ⟨hc, before, after, rfl, hbefore⟩ := List.find?_eq_some_iff_append.mp hfind
    exact .inr ⟨_, .invalidDigit (by simpa using hbefore) (by simpa using hc)⟩
  | none =>
    have hdigits : ∀ c ∈ piece, c ∈ Vlq.alphabet := by simpa using List.find?_eq_none.mp hfind
    obtain ⟨fields, front, run, rfl, hfront, hrun⟩ := exists_spelling hdigits
    rcases List.eq_nil_or_concat' run with rfl | ⟨before, last, rfl⟩
    · rw [List.append_nil]
      by_cases hf : fields ∈ [1, 4, 5]
      · exact .inl ⟨fields, hf, hfront⟩
      · exact .inr ⟨_, .invalidSegment hfront hf⟩
    · rw [← List.append_assoc] at hdigits ⊢
      exact .inr ⟨_, .truncated (List.forall_mem_append.mp hdigits).1
        (hrun last (List.mem_append_right before List.mem_cons_self))⟩

/-- **Reading a piece finds out what is wrong with it.** -/
theorem stepOf_eq_error_iff : stepOf piece = .error fault ↔ Faulty piece fault := by
  refine ⟨fun h => ?_, Faulty.stepOf_eq⟩
  rcases sound_or_faulty piece with ⟨fields, hf, hspells⟩ | ⟨other, hother⟩
  · obtain ⟨step, hstep, -⟩ := exists_stepOf hspells hf
    cases h.symm.trans hstep
  · cases h.symm.trans hother.stepOf_eq
    exact hother

/-- **A piece is read as a segment exactly if it is one**, and then it has the fields of the segment. -/
theorem spells_of_stepOf (h : stepOf piece = .ok step) :
    Spells (fieldsOf step).length piece ∧ (fieldsOf step).length ∈ [1, 4, 5] := by
  rcases sound_or_faulty piece with ⟨fields, hf, hspells⟩ | ⟨fault, hfault⟩
  · obtain ⟨found, hfound, rfl⟩ := exists_stepOf hspells hf
    cases h.symm.trans hfound
    exact ⟨hspells, hf⟩
  · cases h.symm.trans hfault.stepOf_eq

theorem exists_stepOf_iff : (∃ step, stepOf piece = .ok step) ↔ Sound piece := by
  constructor
  · rintro ⟨step, hstep⟩
    obtain ⟨hspells, hf⟩ := spells_of_stepOf hstep
    exact ⟨_, hf, hspells⟩
  · rintro ⟨fields, hf, hspells⟩
    obtain ⟨step, hstep, -⟩ := exists_stepOf hspells hf
    exact ⟨step, hstep⟩

/-! ## Mappings -/

/-- A segment has the fields that a piece gives it. -/
structure Matches (piece : List Char) (segment : Segment Nat) : Prop where
  /-- It comes from a place for four fields or five. -/
  origin : segment.origin.isSome ↔ Spells 4 piece ∨ Spells 5 piece
  /-- It has a name for five. -/
  name : (segment.origin.bind Origin.name).isSome ↔ Spells 5 piece

theorem matches_follow (h : stepOf piece = .ok step) (base : Base) :
    Matches piece (base.follow step) := by
  obtain ⟨hspells, -⟩ := spells_of_stepOf h
  obtain ⟨column, origin⟩ := step
  cases origin with
  | none => constructor <;> simp [hspells.spells_iff, Base.follow, Base.segment, fieldsOf]
  | some origin =>
    obtain ⟨source, line, sourceColumn, name⟩ := origin
    cases name <;> constructor <;> simp [hspells.spells_iff, Base.follow, Base.segment, fieldsOf]

theorem forall₂_segmentsOf {pieces : List (List Char)} {steps : List (Segment Int)}
    (h : List.Forall₂ (fun piece step => stepOf piece = .ok step) pieces steps) (base : Base) :
    List.Forall₂ Matches pieces (segmentsOf base steps).1 := by
  induction h generalizing base with
  | nil => exact .nil
  | cons hstep _ ih => exact .cons (matches_follow hstep base) (ih _)

theorem forall₂_stepsToLines {texts : List (List Char)} {lines : List (List (Segment Int))}
    (h : List.Forall₂ (fun text steps => lineOf text = .ok steps) texts lines) (base : Base) :
    List.Forall₂ (List.Forall₂ Matches) (texts.map piecesOf) (stepsToLines base lines) := by
  induction h generalizing base with
  | nil => exact .nil
  | cons hline _ ih => exact .cons (forall₂_segmentsOf (mapM_eq_ok_iff.mp hline) _) (ih _)

/-- The pieces of a text that hold segments, in all its lines. -/
def allPieces (text : List Char) : List (List Char) :=
  (Text.splitOn ';' text).flatMap piecesOf

theorem mapM_allPieces (text : List Char) :
    (allPieces text).mapM stepOf = ((Text.splitOn ';' text).mapM lineOf).map List.flatten :=
  mapM_flatMap

/-- The lines of a text are read exactly if all its pieces are. -/
theorem exists_decode_iff (text : List Char) :
    (∃ lines, decode text = .ok lines) ↔ ∃ steps, (allPieces text).mapM stepOf = .ok steps := by
  rw [decode_eq_map, mapM_allPieces]
  cases (Text.splitOn ';' text).mapM lineOf <;> simp [Except.map]

theorem decode_eq_error_iff : decode text = .error fault ↔ (allPieces text).mapM stepOf = .error fault := by
  rw [decode_eq_map, mapM_allPieces]
  cases (Text.splitOn ';' text).mapM lineOf <;> simp [Except.map]

/-- The lines that are read have the shape of the text. -/
theorem forall₂_matches_of_decode {lines : List (List (Segment Nat))} (h : decode text = .ok lines) :
    List.Forall₂ (List.Forall₂ Matches) ((Text.splitOn ';' text).map piecesOf) lines := by
  rw [decode_eq_map] at h
  cases hlines : (Text.splitOn ';' text).mapM lineOf with
  | error fault =>
    rw [hlines] at h
    cases h
  | ok steps =>
    rw [hlines] at h
    cases h
    exact forall₂_stepsToLines (mapM_eq_ok_iff.mp hlines) .zero

/-- **Mappings are read exactly if every piece is a segment**; then there is a line for each part and a
segment for each piece, with the fields of the piece. Otherwise the fault is that of the first piece that
is none. What the numbers are, and what they add up to, plays no part. -/
theorem decode_grammar (text : List Char) :
    ((∃ lines, decode text = .ok lines) ↔ ∀ piece ∈ allPieces text, Sound piece) ∧
    (∀ lines, decode text = .ok lines →
      List.Forall₂ (List.Forall₂ Matches) ((Text.splitOn ';' text).map piecesOf) lines) ∧
    ∀ fault, decode text = .error fault ↔ ∃ before piece after,
      allPieces text = before ++ piece :: after ∧ (∀ piece ∈ before, Sound piece) ∧ Faulty piece fault := by
  refine ⟨?_, fun lines => forall₂_matches_of_decode, fun fault => ?_⟩
  · rw [exists_decode_iff, exists_mapM_iff]
    simp only [exists_stepOf_iff]
  · rw [decode_eq_error_iff, mapM_eq_error_iff]
    simp only [exists_stepOf_iff, stepOf_eq_error_iff]

/-- Two lines, the second one with an empty piece and a segment without an origin. -/
theorem decode_grammar_sample : ∃ lines, decode "AAAA,gBCAAA;,D".toList = .ok lines ∧
    List.Forall₂ (List.Forall₂ Matches) [["AAAA".toList, "gBCAAA".toList], ["D".toList]] lines := by
  have h : decode "AAAA,gBCAAA;,D".toList = .ok [[⟨0, some ⟨0, 0, 0, none⟩⟩, ⟨16, some ⟨1, 0, 0, some 0⟩⟩],
      [⟨0, none⟩]] := by
    decide +kernel
  exact ⟨_, h, (decode_grammar _).2.1 _ h⟩

end Mappings

end DeferredLog
