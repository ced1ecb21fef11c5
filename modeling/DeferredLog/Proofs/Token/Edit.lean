import DeferredLog.Proofs.Token.Comment
import DeferredLog.Proofs.Token.Insertion
import DeferredLog.Proofs.Token.Word
import DeferredLog.Proofs.Tree.Paired

/-!
# The tokens of a text with a part replaced

What a comment holds, what a string holds, and a name behind a dot can be replaced by other texts. The
tokens are the same but for the text of the string or of the name, and those behind the part move.

* `Scans.split`: a text is cut behind some of its tokens, and is scanned the same in front of another
  rest that is akin.
* `Scans.elsewhere`: a text has the same tokens wherever it starts.
* `Edit.scan_comment`, `Edit.scan_string`, `Edit.scan_member`: the three kinds of parts.
-/

namespace DeferredLog

open Text (isLineBreak isNameStart isNamePart isSign)

/-- A text is cut at an offset in one way. -/
theorem Text.append_inj_of_size {a b c d : List Char} (h : a ++ b = c ++ d) (hsize : size a = size c) :
    a = c ∧ b = d := by
  have hleft : splitAt? (size c) (a ++ b) = some (a, b) := splitAt?_eq_some_iff.mpr ⟨rfl, hsize⟩
  rw [splitAt?_eq_some_iff.mpr ⟨h, rfl⟩] at hleft
  exact Prod.mk.inj (Option.some.inj hleft.symm)

namespace Lexeme

/-! ## Strings and names -/

theorem read_string {context : Context} {c : Char} {cs : List Char} {lexeme : Lexeme}
    (h : read context c cs = .ok lexeme) (hk : lexeme.kind = .string) : c = '"' ∨ c = '\'' := by
  cases readAs_of_read h with
  | @opening substitution => cases substitution <;> cases hk
  | @piece substitution => cases substitution <;> cases hk
  | string hc => exact hc
  | regex => cases hk
  | number => cases hk
  | ident => cases hk
  | @delimiter kind _ hd =>
    obtain rfl : kind = .string := hk
    rcases delimiterKind_eq_some hd with h | h | h | h | h | h <;> cases h.2
  | punct => cases hk

/-- A character that can stand in a string for itself. -/
def isPlain (quote c : Char) : Bool :=
  c != quote && c != '\\' && c != '\n' && c != '\r'

/-- A string with plain characters is read up to its quote. -/
theorem stringText_plain {quote : Char} {body : List Char} (hq : quote ≠ '\\')
    (h : body.all (isPlain quote) = true) (rest : List Char) :
    stringText quote (body ++ quote :: rest) = some (body ++ [quote], rest) := by
  induction body with
  | nil =>
    rw [List.nil_append, stringText, if_pos rfl]
    · rfl
    · exact fun h => absurd h hq
    · exact fun _ _ h => absurd h hq
  | cons c body ih =>
    rw [List.all_cons, Bool.and_eq_true] at h
    obtain ⟨hc, hbody⟩ := h
    simp only [isPlain, Bool.and_eq_true, bne_iff_ne] at hc
    obtain ⟨⟨⟨hquote, hslash⟩, hn⟩, hr⟩ := hc
    rw [List.cons_append, stringText, if_neg hquote, if_neg (by simp [hn, hr]), ih hbody]
    · rfl
    · exact fun h => absurd h hslash
    · exact fun _ _ h => absurd h hslash

theorem read_plain {context : Context} {quote : Char} {body : List Char}
    (hquote : quote = '"' ∨ quote = '\'') (h : body.all (isPlain quote) = true) (rest : List Char) :
    read context quote (body ++ quote :: rest) = .ok ⟨.string, quote :: (body ++ [quote]), rest⟩ := by
  have hslash : quote ≠ '\\' := by rcases hquote with rfl | rfl <;> decide
  rcases hquote with rfl | rfl <;> simp [read, string, stringText_plain hslash h]

/-- Whether a text is a name. Keywords are names too. -/
def isName : List Char → Bool
  | [] => false
  | c :: more => isNameStart c && more.all isNamePart

section NameStart

variable {c : Char}

theorem not_isSign_of_isNameStart (h : isNameStart c = true) : isSign c = false := by
  rw [Bool.eq_false_iff]
  intro hsign
  have hpart := Text.isNamePart_of_isNameStart h
  rw [Text.not_isNamePart_of_isSign hsign] at hpart
  cases hpart

theorem not_isDigit_of_isNameStart (h : isNameStart c = true) : c.isDigit = false := by
  rw [Bool.eq_false_iff]
  intro hdigit
  have hascii := Text.val_lt_of_isAlphanum (c := c) (by simp [Char.isAlphanum, hdigit])
  simp only [isNameStart, Text.isAlphabetic, hascii, if_true, Bool.or_eq_true, decide_eq_true_eq] at h
  rcases h with (rfl | rfl) | hletter
  · exact absurd hdigit (by decide)
  · exact absurd hdigit (by decide)
  · have hbounds := Text.bounds_of_isAlpha hletter
    have hbounds' := Text.bounds_of_isDigit hdigit
    omega

/-- No punctuator goes on with a name. -/
theorem isStop_of_isNameStart (h : isNameStart c = true) : isStop c = true := by
  rw [isStop, not_isDigit_of_isNameStart h, Bool.not_false, Bool.true_and, List.all_eq_true]
  intro p hp
  rw [Bool.not_eq_true', Bool.eq_false_iff]
  intro hc
  have hsign := isSign_of_mem_punctuators hp (List.mem_of_mem_tail (List.contains_iff_mem.mp hc))
  rw [not_isSign_of_isNameStart h] at hsign
  cases hsign

/-- A gap ends before a name. -/
theorem endsBefore_of_isNameStart (h : isNameStart c = true) (cs : List Char) :
    Gap.EndsBefore (c :: cs) := by
  refine Gap.endsBefore_cons_iff.mpr ⟨Bool.eq_false_iff.mpr fun hspace => ?_, ?_⟩
  · have hpart := Text.isNamePart_of_isNameStart h
    rw [Text.not_isNamePart_of_blank hspace] at hpart
    cases hpart
  · rintro rfl
    exact absurd h (by decide +kernel)

/-- A name is read up to its end. -/
theorem read_name {context : Context} {more rest : List Char} (h : isNameStart c = true)
    (hmore : more.all isNamePart = true) (hrest : rest.head?.any isNamePart = false) :
    read context c (more ++ rest) = .ok ⟨.ident, c :: more, rest⟩ := by
  have hne : ∀ {d}, isSign d = true → c ≠ d := by
    rintro d hd rfl
    rw [not_isSign_of_isNameStart h] at hd
    cases hd
  have hall : ∀ d ∈ more, isNamePart d = true := List.all_eq_true.mp hmore
  have htake : (more ++ rest).takeWhile isNamePart = more ∧ (more ++ rest).dropWhile isNamePart = rest := by
    rw [List.takeWhile_append_of_pos hall, List.dropWhile_append_of_pos hall]
    cases rest with
    | nil => simp
    | cons d rest =>
      rw [List.head?_cons, Option.any_some] at hrest
      simp [hrest]
  rw [read, if_neg (hne (by decide)), if_neg (by simp [hne (d := '\x7d') (by decide)]),
    if_neg (by simp [hne (d := '"') (by decide), hne (d := '\'') (by decide)]),
    if_neg (by simp [hne (d := '/') (by decide)]), if_neg (by simp [hne (d := '.') (by decide)]),
    if_neg (by simp [not_isDigit_of_isNameStart h]), if_pos h, ident, htake.1, htake.2]

end NameStart

end Lexeme

namespace Token

/-! ## Texts cut behind a token -/

/-- Where the last of some tokens ends, if they follow an offset. -/
def endOf (offset : Nat) (tokens : List Token) : Nat :=
  (tokens.getLast?.map stop).getD offset

@[simp]
theorem endOf_nil (offset : Nat) : endOf offset [] = offset := rfl

@[simp]
theorem endOf_cons (offset : Nat) (token : Token) (tokens : List Token) :
    endOf offset (token :: tokens) = endOf token.stop tokens := by
  cases tokens with
  | nil => rfl
  | cons next tokens =>
    obtain ⟨last, hlast⟩ : ∃ last, (next :: tokens).getLast? = some last :=
      Option.isSome_iff_exists.mp (List.getLast?_isSome.mpr (List.cons_ne_nil _ _))
    rw [endOf, endOf, List.getLast?_cons_cons, hlast, Option.map_some, Option.getD_some, Option.getD_some]

variable {context : Context} {offset : Nat} {cs : List Char} {tokens a b : List Token}

/-- **A text is cut behind some of its tokens.** These are scanned the same in front of another rest that
is akin and starts alike. -/
theorem Scans.split (h : Scans context offset cs (a ++ b)) : ∃ w r, cs = w ++ r ∧
    offset + Text.size w = endOf offset a ∧ Scans (context.after a) (endOf offset a) r b ∧
    ∀ r' b', Lexeme.Akin r r' → Lexeme.Level r r' →
      Scans (context.after a) (endOf offset a) r' b' → Scans context offset (w ++ r') (a ++ b') := by
  induction a generalizing context offset cs with
  | nil => exact ⟨[], cs, rfl, rfl, h, fun _ _ _ _ h => h⟩
  | cons token a ih =>
    cases h with
    | @token _ _ gap c more kind rest _ hgap hread h =>
      obtain ⟨w, r, rfl, hsize, hr, hback⟩ := ih h
      have hend : endOf offset (ofLexeme offset gap ⟨kind, c :: more, w ++ r⟩ :: a) =
          endOf (offset + Text.size gap + Text.size (c :: more)) a := by
        rw [endOf_cons, stop_ofLexeme]
      refine ⟨gap ++ (c :: more ++ w), r, by simp, ?_, ?_, fun r' b' ha hhead h' => ?_⟩
      · rw [hend, ← hsize]
        simp only [Text.size_append, Text.size_cons]
        omega
      · rw [hend]
        exact hr
      · rw [hend] at h'
        have hlevel := hhead.append w
        have hgap' : Gap.skip .blank offset (gap ++ (c :: more ++ (w ++ r'))) =
            .ok (gap, c :: more ++ (w ++ r')) :=
          Gap.skip_level hgap (hlevel.append more)
        have htoken := Scans.token hgap' (Lexeme.read_of_akin hread (ha.append w) fun _ => hlevel)
          (hback r' b' ha hhead h')
        rw [List.append_assoc, List.append_assoc]
        exact htoken

/-- **A text has the same tokens wherever it starts.** -/
theorem Scans.elsewhere (h : Scans context offset cs tokens) (offset' : Nat) :
    Scans context offset' cs
      (tokens.map fun token => { token with start := token.start - offset + offset' }) := by
  induction h generalizing offset' with
  | @done context offset cs hgap =>
    have hgap' := Gap.skip_congr hgap (Gap.Mode.like_refl .blank) offset' rfl (by simp)
    rw [List.append_nil] at hgap'
    exact .done hgap'
  | @token context offset gap c more kind rest tokens hgap hread h ih =>
    have hgap' := Gap.skip_congr hgap (Gap.Mode.like_refl .blank) offset' rfl fun _ => rfl
    have hrest : tokens.map (fun token => { token with start := token.start - offset + offset' }) =
        tokens.map fun token => { token with
          start := token.start - (offset + Text.size gap + Text.size (c :: more)) +
            (offset' + Text.size gap + Text.size (c :: more)) } :=
      List.map_congr_left fun token ht => by
        have := h.start_le token ht
        have hstart : token.start - offset + offset' =
            token.start - (offset + Text.size gap + Text.size (c :: more)) +
              (offset' + Text.size gap + Text.size (c :: more)) := by
          omega
        rw [hstart]
    have hfirst : { ofLexeme offset gap ⟨kind, c :: more, rest⟩ with
          start := (ofLexeme offset gap ⟨kind, c :: more, rest⟩).start - offset + offset' } =
        ofLexeme offset' gap ⟨kind, c :: more, rest⟩ := by
      have hstart : offset + Text.size gap - offset + offset' = offset' + Text.size gap := by omega
      rw [ofLexeme, ofLexeme, hstart]
    rw [List.map_cons, hfirst, hrest]
    exact .token hgap' hread (ih _)

theorem interpreterLine_eq_nil_iff {source : List Char} :
    (interpreterLine source).1 = [] ↔ ¬ ['#', '!'] <+: source := by
  unfold interpreterLine
  split
  · simp
  · rename_i hnone
    simp only [true_iff]
    rintro ⟨more, rfl⟩
    exact hnone _ rfl

/-- A text names no interpreter if it starts like one that names none. -/
theorem interpreterLine_append_of_nil {w r r' : List Char} (h : (interpreterLine (w ++ r)).1 = [])
    (hhead : Lexeme.Level r r') (hhash : r.head? ≠ some '#') :
    interpreterLine (w ++ r') = ([], w ++ r') := by
  have hsame : ∀ {c}, c = '#' ∨ c = '!' → r'.head? = some c → r.head? = some c := by
    intro c hc hr'
    rcases hhead with hhead | ⟨-, hbreak⟩
    · rwa [← hhead]
    · rw [hr', Option.any_some] at hbreak
      rcases hc with rfl | rfl <;> exact absurd hbreak (by decide)
  have hnone : (interpreterLine (w ++ r')).1 = [] := by
    rw [interpreterLine_eq_nil_iff] at h ⊢
    rintro ⟨more, hmore⟩
    match w with
    | [] =>
      rw [List.nil_append] at hmore
      exact hhash (hsame (.inl rfl) (by rw [← hmore]; rfl))
    | [c] =>
      obtain ⟨rfl, rfl⟩ := List.cons.inj hmore
      obtain ⟨rest, rfl⟩ := List.head?_eq_some_iff.mp (hsame (.inr rfl) rfl)
      exact h ⟨rest, rfl⟩
    | c :: d :: w =>
      obtain ⟨rfl, htail⟩ := List.cons.inj hmore
      obtain ⟨rfl, -⟩ := List.cons.inj htail
      exact h ⟨w ++ r, rfl⟩
  have hall := interpreterLine_append (w ++ r')
  rw [hnone, List.nil_append] at hall
  exact Prod.ext hnone hall

/-- **A program is cut behind some of its tokens.** -/
theorem scan_split {source : List Char} (h : scan source = .ok (a ++ b)) : ∃ w r, source = w ++ r ∧
    Text.size w = endOf (Text.size (interpreterLine source).1) a ∧
    Scans (Context.start.after a) (Text.size w) r b ∧
    ∀ r' b', Lexeme.Akin r r' → Lexeme.Level r r' → r.head? ≠ some '#' →
      Scans (Context.start.after a) (Text.size w) r' b' → scan (w ++ r') = .ok (a ++ b') := by
  obtain ⟨w, r, hcs, hsize, hr, hback⟩ := (Scans.iff.mpr h).split
  have hsource : source = (interpreterLine source).1 ++ (w ++ r) := by
    rw [← hcs, interpreterLine_append]
  have hend : Text.size ((interpreterLine source).1 ++ w) =
      endOf (Text.size (interpreterLine source).1) a := by
    rw [Text.size_append, hsize]
  refine ⟨(interpreterLine source).1 ++ w, r, by rw [List.append_assoc, ← hsource], hend,
    by rwa [hend], fun r' b' ha hhead hhash h' => ?_⟩
  have hsplit : interpreterLine ((interpreterLine source).1 ++ (w ++ r')) =
      ((interpreterLine source).1, w ++ r') := by
    by_cases hline : (interpreterLine source).1 = []
    · rw [hline, List.nil_append] at hsource ⊢
      rw [hsource] at hline
      exact interpreterLine_append_of_nil hline hhead hhash
    · refine interpreterLine_append_of_head? hline ?_
      rcases hhead.append w with hsame | ⟨hbrace, -⟩
      · rwa [hcs]
      · have hbreak := interpreterLine_rest hline
        rw [hcs, hbrace] at hbreak
        exact absurd hbreak (by decide)
  rw [hend] at h'
  rw [List.append_assoc, scan, hsplit]
  exact (hback r' b' ha hhead h').scanFrom

theorem Ordered.stop_le_endOf (h : Ordered tokens) {token : Token} (ht : token ∈ tokens) (offset : Nat) :
    token.stop ≤ endOf offset tokens := by
  cases hl : tokens.getLast? with
  | none =>
    rw [List.getLast?_eq_none_iff.mp hl] at ht
    cases ht
  | some last =>
    rw [endOf, hl, Option.map_some, Option.getD_some]
    exact h.stop_le_of_getLast? hl ht

end Token

/-! ## Edits -/

/-- The replacement of a part of a text. -/
structure Edit where
  /-- The offset of the part. -/
  offset : Nat
  /-- How many bytes it had. -/
  before : Nat
  /-- How many bytes it has now. -/
  after : Nat
  /-- The new texts of tokens, by their offsets. -/
  text : Nat → Option String

namespace Edit

/-- The replacement of the part behind a text. -/
def behind (front old new : List Char) (text : Nat → Option String) : Edit :=
  ⟨Text.size front, Text.size old, Text.size new, text⟩

/-- The replacement of what a comment behind a text holds. -/
def ofComment (front old new : List Char) : Edit :=
  behind front old new fun _ => none

/-- The replacement of what a string behind a text holds. -/
def ofString (front old new : List Char) (quote : Char) (token : Token) : Edit :=
  behind front old new fun offset =>
    if offset = token.start then some (String.ofList (quote :: (new ++ [quote]))) else none

/-- The replacement of a name behind a text. -/
def ofName (front name : List Char) (token : Token) : Edit :=
  behind front token.text.toList name fun offset =>
    if offset = token.start then some (String.ofList name) else none

/-- Where an offset goes. -/
def move (e : Edit) (offset : Nat) : Nat :=
  if offset ≤ e.offset then offset else offset - e.before + e.after

/-- What a token becomes. -/
def token (e : Edit) (token : Token) : Token :=
  { token with text := (e.text token.start).getD token.text, start := e.move token.start }

variable {e : Edit} {context : Context} {offset : Nat} {cs : List Char} {tokens : List Token}

theorem move_of_le (h : offset ≤ e.offset) : e.move offset = offset :=
  if_pos h

theorem move_of_lt (h : e.offset < offset) : e.move offset = offset - e.before + e.after :=
  if_neg (Nat.not_le.mpr h)

theorem text_token {token : Token} (h : e.text token.start = none) : (e.token token).text = token.text := by
  rw [Edit.token, h, Option.getD_none]

/-- Tokens before the part stay as they are. -/
theorem map_token_of_le (h : ∀ token ∈ tokens, token.start ≤ e.offset)
    (ht : ∀ token ∈ tokens, e.text token.start = none) : tokens.map e.token = tokens := by
  have hsame : ∀ token ∈ tokens, e.token token = id token := fun token hm => by
    rw [Edit.token, ht token hm, move_of_le (h token hm)]
    rfl
  rw [List.map_congr_left hsame, List.map_id]

/-- The text behind the part has its tokens where they move. -/
theorem scans_behind (h : Token.Scans context offset cs tokens) (hlt : e.offset < offset)
    (hle : e.offset + e.before ≤ offset) (ht : ∀ token ∈ tokens, e.text token.start = none) :
    Token.Scans context (e.move offset) cs (tokens.map e.token) := by
  have hmoved : tokens.map e.token = tokens.map fun token =>
      { token with start := token.start - offset + e.move offset } :=
    List.map_congr_left fun token hm => by
      have hstart := h.start_le token hm
      have hmove : e.move token.start = token.start - offset + e.move offset := by
        rw [move_of_lt (by omega), move_of_lt hlt]
        omega
      rw [Edit.token, ht token hm, hmove]
      rfl
  rw [hmoved]
  exact h.elsewhere _

/-- Whether the part is one of a token, and no other token gets a new text. -/
structure Within (e : Edit) (token : Token) : Prop where
  /-- The part starts in the token. -/
  start_le : token.start ≤ e.offset
  /-- It does not start behind it. -/
  lt_stop : e.offset < token.stop
  /-- It ends in the token. -/
  le_stop : e.offset + e.before ≤ token.stop
  /-- Other tokens keep their texts. -/
  other : ∀ offset, offset ≠ token.start → e.text offset = none

namespace Within

variable {token : Token} {a b : List Token}

/-- The tokens before the one with the part stay as they are. -/
theorem map_before (h : e.Within token) (hordered : Token.Ordered (a ++ token :: b)) :
    a.map e.token = a := by
  have hlt : ∀ t ∈ a, t.start < token.start := fun t hm => by
    have := hordered.between hm List.mem_cons_self
    have := hordered.left.nonempty t hm
    omega
  exact map_token_of_le (fun t hm => Nat.le_trans (Nat.le_of_lt (hlt t hm)) h.start_le)
    fun t hm => h.other _ (Nat.ne_of_lt (hlt t hm))

/-- The text behind the token has its tokens where they move. -/
theorem scans_after (h : e.Within token) (hscan : Token.Scans context token.stop cs b) :
    Token.Scans context (e.move token.stop) cs (b.map e.token) := by
  refine scans_behind hscan h.lt_stop h.le_stop fun t hm => h.other _ ?_
  have := hscan.start_le t hm
  have := h.start_le
  have := h.lt_stop
  omega

/-- The token and those behind it are scanned in front of the same rest. -/
theorem scans {gap text rest more : List Char} {kind : TokenKind} {c : Char}
    (h : e.Within (.ofLexeme offset gap ⟨kind, text, rest⟩))
    (htext : e.text (offset + Text.size gap) = some (String.ofList (c :: more)))
    (hsize : Text.size (c :: more) + e.before = Text.size text + e.after)
    (hgap : Gap.skip .blank offset (gap ++ (c :: more ++ rest)) = .ok (gap, c :: more ++ rest))
    (hread : Lexeme.read context c (more ++ rest) = .ok ⟨kind, c :: more, rest⟩)
    (hscan : Token.Scans (context.behind kind (String.ofList (c :: more)))
      (Token.ofLexeme offset gap ⟨kind, text, rest⟩).stop rest b) :
    Token.Scans context offset (gap ++ (c :: more ++ rest))
      ((Token.ofLexeme offset gap ⟨kind, text, rest⟩ :: b).map e.token) := by
  have hstart : offset + Text.size gap ≤ e.offset := h.start_le
  have hle := h.le_stop
  have hfirst : e.token (.ofLexeme offset gap ⟨kind, text, rest⟩) =
      .ofLexeme offset gap ⟨kind, c :: more, rest⟩ := by
    rw [Edit.token, Token.ofLexeme, htext, move_of_le hstart]
    rfl
  have htail := h.scans_after hscan
  have hstop : e.move (Token.ofLexeme offset gap ⟨kind, text, rest⟩).stop =
      offset + Text.size gap + Text.size (c :: more) := by
    rw [move_of_lt h.lt_stop]
    simp only [Token.stop_ofLexeme] at hle ⊢
    omega
  rw [hstop] at htail
  rw [List.map_cons, hfirst]
  exact .token hgap hread htail

end Within

end Edit

/-! ## Comments -/

/-- A comment in a text with some tokens: behind the text of the first of them, white space and whole
comments stands its opening. -/
structure CommentAt (source : List Char) (tokens : List Token) (kind : CommentKind)
    (front body back : List Char) : Prop where
  /-- The text before the body of the comment, the body and the text behind it. -/
  text : source = front ++ (body ++ back)
  /-- The comment stands between tokens. -/
  front : ∃ a b w gap, tokens = a ++ b ∧ front = w ++ (gap ++ kind.opening) ∧
    Text.size w = Token.endOf (Text.size (Token.interpreterLine source).1) a ∧ Gap.Closed gap
  /-- The body does not end the comment. -/
  holds : kind.Holds body
  /-- What follows it does. -/
  ends : kind.EndsBefore back

namespace CommentKind

theorem Holds.not_isLineBreak {body : List Char} (h : CommentKind.line.Holds body) :
    body.any isLineBreak = false :=
  List.any_eq_false.mpr fun c hc => by rw [h c hc]; exact Bool.false_ne_true

/-- No lexeme goes on with the opening of a comment. -/
theorem akin (kind : CommentKind) (cs cs' : List Char) :
    Lexeme.Akin (kind.opening ++ cs) (kind.opening ++ cs') ∧
      (kind.opening ++ cs').head? = (kind.opening ++ cs).head? := by
  have hslash : Lexeme.isStop '/' = true := by decide +kernel
  cases kind <;> exact ⟨.stop hslash hslash, rfl⟩

end CommentKind

namespace Gap

theorem head?_append_ne_hash {offset : Nat} {gap rest : List Char}
    (h : skip .blank offset (gap ++ rest) = .ok (gap, rest)) (hr : rest.head? ≠ some '#') :
    (gap ++ rest).head? ≠ some '#' := by
  cases hg : gap with
  | nil => exact hr
  | cons c gap =>
    rintro hhash
    cases hhash
    rcases skip_first h '#' (by rw [hg]; rfl) with hspace | hslash
    · exact absurd hspace (by decide +kernel)
    · exact absurd hslash (by decide)

/-- No gap starts like the line that names an interpreter. -/
theorem Closed.head?_ne_hash {gap : List Char} (h : Closed gap) (kind : CommentKind) (cs : List Char) :
    (gap ++ (kind.opening ++ cs)).head? ≠ some '#' := by
  cases h with
  | nil => cases kind <;> simp [CommentKind.opening]
  | space hc =>
    rintro hhash
    cases hhash
    exact absurd hc (by decide +kernel)
  | line | block => simp

/-- A gap with a comment in it, whatever it holds. -/
theorem skip_before {kind : CommentKind} {gap body back : List Char} (hgap : Closed gap)
    (h : kind.Holds body) (he : kind.EndsBefore back) (offset : Nat) :
    skip .blank offset (gap ++ (kind.opening ++ (body ++ back))) =
      lead (gap ++ (kind.opening ++ body)) (skip (kind.mode (offset + Text.size gap))
        (offset + Text.size (gap ++ (kind.opening ++ body))) back) := by
  rw [skip_closed hgap, skip_comment h he, lead_append gap, Text.size_append gap, Nat.add_assoc]

/-- A gap goes on behind a comment as if that held something else. -/
theorem skip_past {kind : CommentKind} {gap body back gap' rest : List Char} {offset : Nat}
    (hgap : Closed gap) (h : kind.Holds body) (he : kind.EndsBefore back)
    (hskip : skip .blank offset (gap ++ (kind.opening ++ (body ++ back))) = .ok (gap', rest)) :
    ∃ more, gap' = gap ++ (kind.opening ++ body) ++ more ∧ back = more ++ rest ∧
      (rest ≠ [] → more ≠ []) ∧ ∀ new, kind.Holds new →
        skip .blank offset (gap ++ (kind.opening ++ (new ++ back))) =
          .ok (gap ++ (kind.opening ++ new) ++ more, rest) := by
  rw [skip_before hgap h he] at hskip
  obtain ⟨more, rfl, hmore⟩ := lead_eq_ok hskip
  have hback := skip_append hmore
  refine ⟨more, rfl, hback.symm, fun hrest hnil => ?_, fun new hnew => ?_⟩
  · have hmode := (skip_last hmore hrest).2 hnil
    cases kind <;> cases hmode
  · rw [skip_before hgap hnew he, ← hback,
      skip_congr hmore (kind.like_mode _ _) _ rfl fun _ => rfl, lead_ok]

end Gap

namespace Token

variable {context : Context} {tokens : List Token} {w gap old new back : List Char}

/-- The tokens behind a comment in a gap start behind its body. -/
theorem Scans.behind_comment {kind : CommentKind} (hgap : Gap.Closed gap) (hold : kind.Holds old)
    (hends : kind.EndsBefore back)
    (h : Scans context (Text.size w) (gap ++ (kind.opening ++ (old ++ back))) tokens) :
    ∀ token ∈ tokens, Text.size (w ++ (gap ++ kind.opening)) + Text.size old < token.start := by
  generalize htext : gap ++ (kind.opening ++ (old ++ back)) = cs at h
  cases h with
  | done => exact nofun
  | @token _ _ gap' c text kind' rest tokens hskip hread h =>
    rw [← htext] at hskip
    obtain ⟨more, rfl, -, hmore, -⟩ := Gap.skip_past hgap hold hends hskip
    have hpos := Text.size_pos (hmore (by simp))
    intro token ht
    simp only [Text.size_append]
    rcases List.mem_cons.mp ht with rfl | ht
    · simp only [ofLexeme, Text.size_append]
      omega
    · have := h.start_le token ht
      simp only [Text.size_append] at this
      omega

/-- What a comment in a gap holds has no say in the tokens behind it. -/
theorem Scans.comment {kind : CommentKind} (hgap : Gap.Closed gap) (hold : kind.Holds old)
    (hnew : kind.Holds new) (hends : kind.EndsBefore back)
    (hline : new.any isLineBreak = old.any isLineBreak)
    (h : Scans context (Text.size w) (gap ++ (kind.opening ++ (old ++ back))) tokens) :
    Scans context (Text.size w) (gap ++ (kind.opening ++ (new ++ back)))
      (tokens.map (Edit.ofComment (w ++ (gap ++ kind.opening)) old new).token) := by
  generalize htext : gap ++ (kind.opening ++ (old ++ back)) = cs at h
  cases h with
  | done hskip =>
    rw [← htext] at hskip
    obtain ⟨more, -, hback, -, hskip'⟩ := Gap.skip_past hgap hold hends hskip
    rw [List.append_nil] at hback
    refine .done ?_
    rw [hskip' new hnew, hback]
    simp
  | @token _ _ gap' c text kind' rest tokens hskip hread h =>
    rw [← htext] at hskip
    obtain ⟨more, rfl, rfl, hmore, hskip'⟩ := Gap.skip_past hgap hold hends hskip
    have hskip' := hskip' new hnew
    have hpos := Text.size_pos (hmore (by simp))
    generalize he : Edit.ofComment (w ++ (gap ++ kind.opening)) old new = e
    have hoffset : e.offset = Text.size w + (Text.size gap + Text.size kind.opening) := by
      rw [← he, Edit.ofComment, Edit.behind, Text.size_append, Text.size_append]
    have hbefore : e.before = Text.size old := he ▸ rfl
    have hafter : e.after = Text.size new := he ▸ rfl
    have hnone : ∀ o, e.text o = none := fun o => he ▸ rfl
    have hbreaks : (gap ++ (kind.opening ++ new) ++ more).any isLineBreak =
        (gap ++ (kind.opening ++ old) ++ more).any isLineBreak := by
      simp only [List.any_append, hline]
    -- The token behind the comment starts behind the part, and so do the others.
    have hmove : ∀ n, e.move (Text.size w + Text.size (gap ++ (kind.opening ++ old) ++ more) + n) =
        Text.size w + Text.size (gap ++ (kind.opening ++ new) ++ more) + n := by
      intro n
      simp only [Text.size_append]
      rw [Edit.move_of_lt (by omega)]
      omega
    have hfirst : e.token (ofLexeme (Text.size w) (gap ++ (kind.opening ++ old) ++ more)
        ⟨kind', c :: text, rest⟩) = ofLexeme (Text.size w) (gap ++ (kind.opening ++ new) ++ more)
          ⟨kind', c :: text, rest⟩ := by
      have hstart := hmove 0
      rw [Nat.add_zero, Nat.add_zero] at hstart
      simp only [Edit.token, ofLexeme, hnone, Option.getD_none, hstart, hbreaks]
    have htail := Edit.scans_behind (e := e) h (by simp only [Text.size_append]; omega)
      (by simp only [Text.size_append]; omega) fun token _ => hnone token.start
    rw [hmove] at htail
    have hnew : gap ++ (kind.opening ++ (new ++ (more ++ (c :: text ++ rest)))) =
        gap ++ (kind.opening ++ new) ++ more ++ (c :: text ++ rest) := by
      simp
    rw [hnew] at hskip' ⊢
    rw [List.map_cons, hfirst]
    exact .token hskip' hread htail

/-- A comment lies apart from the tokens. -/
theorem apart_comment {source front : List Char} {kind : CommentKind} (h : scan source = .ok tokens)
    (hc : CommentAt source tokens kind front old back) :
    ∀ token ∈ tokens, token.stop < Text.size front ∨ Text.size front + Text.size old < token.start := by
  obtain ⟨rfl, ⟨a, b, w, gap, rfl, rfl, hsize, hgap⟩, hold, hends⟩ := hc
  obtain ⟨w', r, hsource, hsize', hscan, -⟩ := scan_split h
  rw [List.append_assoc w, List.append_assoc gap] at hsource
  obtain ⟨rfl, rfl⟩ := Text.append_inj_of_size hsource (hsize.trans hsize'.symm)
  have hordered : Ordered (a ++ b) := (Scans.iff.mpr h).ordered
  have hopening : 0 < Text.size kind.opening := by cases kind <;> decide
  intro token ht
  rcases List.mem_append.mp ht with ht | ht
  · have hend := hordered.left.stop_le_endOf ht
      (Text.size (interpreterLine (w ++ (gap ++ kind.opening) ++ (old ++ back))).1)
    rw [← hsize] at hend
    exact .inl (by simp only [Text.size_append]; omega)
  · exact .inr (hscan.behind_comment hgap hold hends token ht)

/-- **What a comment holds can be replaced.** The tokens are the same, and those behind it move. -/
theorem scan_comment {source front : List Char} {kind : CommentKind} (h : scan source = .ok tokens)
    (hc : CommentAt source tokens kind front old back) (hnew : kind.Holds new)
    (hline : kind = .block → new.any isLineBreak = old.any isLineBreak) :
    scan (front ++ (new ++ back)) = .ok (tokens.map (Edit.ofComment front old new).token) := by
  obtain ⟨rfl, ⟨a, b, w, gap, rfl, rfl, hsize, hgap⟩, hold, hends⟩ := hc
  obtain ⟨w', r, hsource, hsize', hscan, hback⟩ := scan_split h
  rw [List.append_assoc w, List.append_assoc gap] at hsource
  obtain ⟨rfl, rfl⟩ := Text.append_inj_of_size hsource (hsize.trans hsize'.symm)
  have hline' : new.any isLineBreak = old.any isLineBreak := by
    cases kind with
    | line => rw [hnew.not_isLineBreak, hold.not_isLineBreak]
    | block => exact hline rfl
  obtain ⟨hakin, hhead⟩ := kind.akin (old ++ back) (new ++ back)
  have hscan' := Scans.comment (w := w) hgap hold hnew hends hline' hscan
  have hall := hback _ _ (hakin.append gap) (.append gap (.of_head? hhead))
    (hgap.head?_ne_hash kind _) hscan'
  have hfront : a.map (Edit.ofComment (w ++ (gap ++ kind.opening)) old new).token = a :=
    Edit.map_token_of_le (fun token ht => ?_) fun _ _ => rfl
  · rw [List.map_append, hfront, List.append_assoc w, List.append_assoc gap]
    exact hall
  · have hordered : Ordered (a ++ b) := (Scans.iff.mpr h).ordered
    have hpos := hordered.left.nonempty token ht
    have hend := hordered.left.stop_le_endOf ht
      (Text.size (interpreterLine (w ++ (gap ++ kind.opening) ++ (old ++ back))).1)
    show token.start ≤ Text.size (w ++ (gap ++ kind.opening))
    rw [Text.size_append, hsize]
    omega

/-! ## The line that names an interpreter -/

theorem interpreterLine_of_holds {body : List Char} (h : CommentKind.line.Holds body)
    (hends : CommentKind.line.EndsBefore back) :
    interpreterLine ('#' :: '!' :: (body ++ back)) = ('#' :: '!' :: body, back) := by
  have hall : ∀ c ∈ body, (!isLineBreak c) = true := fun c hc => by rw [h c hc]; rfl
  have hstop : back.takeWhile (!isLineBreak ·) = [] ∧ back.dropWhile (!isLineBreak ·) = back := by
    cases back with
    | nil => simp
    | cons c back => simp [show isLineBreak c = true from hends c rfl]
  rw [interpreterLine, List.takeWhile_append_of_pos hall, List.dropWhile_append_of_pos hall, hstop.1,
    hstop.2, List.append_nil]

/-- Behind the end of a line tokens start later. -/
theorem Scans.lt_start {offset : Nat} (hends : CommentKind.line.EndsBefore back)
    (h : Scans context offset back tokens) : ∀ token ∈ tokens, offset < token.start := by
  cases h with
  | done => exact nofun
  | @token _ _ gap c more kind rest tokens hskip hread h =>
    have hgap : 0 < Text.size gap := by
      refine Text.size_pos ?_
      rintro rfl
      have hc : Gap.isSpace c = true := by
        simp [Gap.isSpace, Text.isBlank_of_isLineBreak (hends c rfl)]
      have hspace := Gap.skip_closed (.space hc .nil) offset (more ++ rest)
      rw [List.singleton_append] at hspace
      obtain ⟨_, hnil, -⟩ := Gap.lead_eq_ok (hspace.symm.trans hskip)
      cases hnil
    intro token ht
    rcases List.mem_cons.mp ht with rfl | ht
    · exact Nat.lt_add_of_pos_right hgap
    · have := h.start_le token ht
      omega

theorem scans_interpreter (h : scan ('#' :: '!' :: (old ++ back)) = .ok tokens)
    (hold : CommentKind.line.Holds old) (hends : CommentKind.line.EndsBefore back) :
    Scans .start (Text.size ['#', '!'] + Text.size old) back tokens := by
  have hscan := Scans.iff.mpr h
  rw [interpreterLine_of_holds hold hends] at hscan
  rw [← Text.size_append]
  exact hscan

/-- The line that names an interpreter lies apart from the tokens. -/
theorem apart_interpreter (h : scan ('#' :: '!' :: (old ++ back)) = .ok tokens)
    (hold : CommentKind.line.Holds old) (hends : CommentKind.line.EndsBefore back) :
    ∀ token ∈ tokens, Text.size ['#', '!'] + Text.size old < token.start :=
  (scans_interpreter h hold hends).lt_start hends

/-- **What the line that names an interpreter holds can be replaced.** The tokens are the same and
move. -/
theorem scan_interpreter (h : scan ('#' :: '!' :: (old ++ back)) = .ok tokens)
    (hold : CommentKind.line.Holds old) (hnew : CommentKind.line.Holds new)
    (hends : CommentKind.line.EndsBefore back) :
    scan ('#' :: '!' :: (new ++ back)) =
      .ok (tokens.map (Edit.ofComment ['#', '!'] old new).token) := by
  have hmoved : tokens.map (Edit.ofComment ['#', '!'] old new).token = tokens.map fun token =>
      { token with start := token.start - (Text.size ['#', '!'] + Text.size old) +
        (Text.size ['#', '!'] + Text.size new) } :=
    List.map_congr_left fun token ht => by
      have hlt := apart_interpreter h hold hends token ht
      have hmove : (Edit.ofComment ['#', '!'] old new).move token.start = token.start -
          (Text.size ['#', '!'] + Text.size old) + (Text.size ['#', '!'] + Text.size new) := by
        rw [Edit.move_of_lt (by simp only [Edit.ofComment, Edit.behind]; omega)]
        simp only [Edit.ofComment, Edit.behind]
        omega
      rw [Edit.token, hmove]
      rfl
  have hscan := (scans_interpreter h hold hends).elsewhere (Text.size ['#', '!'] + Text.size new)
  rw [← hmoved, ← Text.size_append] at hscan
  rw [scan, interpreterLine_of_holds hnew hends, ← Scans.iff]
  exact hscan

/-! ## Strings -/

/-- A string starts with one of two quotes. -/
theorem Scans.quote_of_string {offset : Nat} {cs : List Char} (h : Scans context offset cs tokens)
    {token : Token} (ht : token ∈ tokens) (hk : token.kind = .string) {quote : Char} {more : List Char}
    (htext : token.text.toList = quote :: more) : quote = '"' ∨ quote = '\'' := by
  induction h with
  | done => cases ht
  | @token context offset gap c text kind rest tokens hgap hread h ih =>
    rcases List.mem_cons.mp ht with rfl | ht
    · rw [ofLexeme, String.toList_ofList] at htext
      obtain rfl := (List.cons.inj htext).1
      exact Lexeme.read_string hread hk
    · exact ih ht

/-- **What a string holds can be replaced** by plain characters. The tokens are the same but for the
text of the string, and those behind it move. -/
theorem scan_string {source front : List Char} {quote : Char} {token : Token}
    (h : scan source = .ok tokens) (ht : token ∈ tokens) (hk : token.kind = .string)
    (htext : token.text.toList = quote :: (old ++ [quote])) (hsource : source = front ++ (old ++ back))
    (hfront : Text.size front = token.start + 1)
    (hnew : new.all (Lexeme.isPlain quote) = true) :
    scan (front ++ (new ++ back)) =
      .ok (tokens.map (Edit.ofString front old new quote token).token) := by
  generalize he : Edit.ofString front old new quote token = e
  obtain ⟨a, b, rfl⟩ := List.append_of_mem ht
  have hordered : Ordered (a ++ token :: b) := (Scans.iff.mpr h).ordered
  obtain ⟨w, r, rfl, hsize, hscan, hback⟩ := scan_split h
  cases hscan with
  | @token _ _ gap c more kind rest _ hgap hread hscan =>
  obtain rfl : kind = .string := hk
  have hquote := Lexeme.read_string hread rfl
  obtain ⟨rfl, rfl⟩ : c = quote ∧ more = old ++ [quote] := by
    rw [ofLexeme, String.toList_ofList] at htext
    exact List.cons.inj htext
  have hone : Char.utf8Size c = 1 := by rcases hquote with rfl | rfl <;> decide
  obtain ⟨rfl, hrest⟩ : front = w ++ (gap ++ [c]) ∧ old ++ back = old ++ c :: rest := by
    refine Text.append_inj_of_size (hsource.symm.trans ?_) ?_
    · simp
    · rw [hfront]
      simp only [ofLexeme, Text.size_append, Text.size_cons, Text.size_nil, hone]
      omega
  obtain rfl := List.append_cancel_left hrest
  have hwithin : e.Within (ofLexeme (Text.size w) gap ⟨.string, c :: (old ++ [c]), rest⟩) := by
    rw [← he]
    refine ⟨?_, ?_, ?_, fun o ho => if_neg ho⟩
    · show Text.size w + Text.size gap ≤ Text.size (w ++ (gap ++ [c]))
      simp only [Text.size_append]
      omega
    all_goals
      rw [stop_ofLexeme]
      simp only [Edit.ofString, Edit.behind, Text.size_append, Text.size_cons, Text.size_nil, hone]
      omega
  have hslash : c ≠ '/' := by rcases hquote with rfl | rfl <;> decide
  have hstop : Lexeme.isStop c = true := by rcases hquote with rfl | rfl <;> decide +kernel
  have hhash : c ≠ '#' := by rcases hquote with rfl | rfl <;> decide
  have hread' : Lexeme.read (Context.start.after a) c (new ++ c :: rest) =
      .ok ⟨.string, c :: (new ++ [c]), rest⟩ :=
    Lexeme.read_plain hquote hnew rest
  rw [← List.singleton_append, ← List.append_assoc] at hread'
  have hgap' : Gap.skip .blank (Text.size w) (gap ++ (c :: (new ++ [c]) ++ rest)) =
      .ok (gap, c :: (new ++ [c]) ++ rest) :=
    Gap.skip_congr hgap (Gap.Mode.like_refl .blank) _ rfl fun hc => absurd (Option.some.inj hc) hslash
  have hscans := hwithin.scans (by rw [← he]; exact if_pos rfl)
    (by rw [← he]; simp only [Edit.ofString, Edit.behind, Text.size_append, Text.size_cons]; omega) hgap' hread'
    (by rw [stop_ofLexeme]; exact hscan)
  have hhead : Lexeme.Level (gap ++ (c :: (old ++ [c]) ++ rest)) (gap ++ (c :: (new ++ [c]) ++ rest)) :=
    .append gap (.of_head? rfl)
  have hall := hback _ _ (.append gap (.stop hstop hstop)) hhead
    (Gap.head?_append_ne_hash hgap (by simpa using hhash)) hscans
  rw [List.map_append, hwithin.map_before hordered]
  simpa using hall

/-! ## Member names -/

/-- Behind a dot a name leaves the same to its right, whatever it is. -/
theorem behind_ident_of_dot (h : context.left = .dot) (text text' : String) :
    context.behind .ident text = context.behind .ident text' := by
  simp [Context.behind, Context.leftOf, h, Context.bracesBehind, Context.headsBehind]

theorem left_behind_dot (context : Context) {text : String} (h : text = "." ∨ text = "?.") :
    (context.behind .punct text).left = .dot := by
  rcases h with rfl | rfl <;> simp [Context.behind, Context.leftOf]

/-- **A name behind a dot can be replaced** by another one. The tokens are the same but for the text of
the name, and those behind it move. -/
theorem scan_member {source front name : List Char} {dot token : Token} {a b : List Token}
    (h : scan source = .ok (a ++ dot :: token :: b)) (hdot : Tree.isDot (.leaf dot) = true)
    (hk : token.kind = .ident)
    (hsource : source = front ++ (token.text.toList ++ back)) (hfront : Text.size front = token.start)
    (hname : Lexeme.isName name = true) :
    scan (front ++ (name ++ back)) =
      .ok ((a ++ dot :: token :: b).map (Edit.ofName front name token).token) := by
  obtain ⟨c, more, rfl⟩ : ∃ c more, name = c :: more := List.exists_cons_of_ne_nil (by
    rintro rfl
    cases hname)
  obtain ⟨hstart, hmore⟩ := Bool.and_eq_true_iff.mp hname
  have hdotText : dot.kind = .punct ∧ (dot.text = "." ∨ dot.text = "?.") := by
    simpa [Tree.isDot, Tree.isPunct, Token.isPunct, ← and_or_left] using hdot
  generalize he : Edit.ofName front (c :: more) token = e
  have hordered : Ordered (a ++ dot :: token :: b) := (Scans.iff.mpr h).ordered
  have hwithin : e.Within token := by
    have hpos := hordered.nonempty token (by simp)
    rw [← he]
    refine ⟨?_, ?_, ?_, fun o ho => if_neg ho⟩
    all_goals
      simp only [Edit.ofName, Edit.behind, hfront, size_text]
      omega
  have hmap : (a ++ dot :: token :: b).map e.token = a ++ dot :: (token :: b).map e.token := by
    rw [List.append_cons] at hordered ⊢
    rw [List.map_append, hwithin.map_before hordered]
    simp
  obtain ⟨w, r, rfl, hsize, hscan, hback⟩ := scan_split h
  cases hscan with
  | @token _ _ gap d dotMore kind _ _ hgap hread hscan =>
  obtain ⟨hpunct, hdotText⟩ := hdotText
  obtain rfl : kind = .punct := hpunct
  have hdotChars : d = '.' ∨ d = '?' := by
    have hchars : (String.ofList (d :: dotMore)).toList = ".".toList ∨
        (String.ofList (d :: dotMore)).toList = "?.".toList :=
      hdotText.imp (congrArg String.toList) (congrArg String.toList)
    rw [String.toList_ofList] at hchars
    exact hchars.imp (fun h => (List.cons.inj h).1) fun h => (List.cons.inj h).1
  have hleft := left_behind_dot (Context.start.after a) hdotText
  cases hscan with
  | @token _ _ gap' c' more' kind rest _ hgap' hread' hscan =>
  obtain rfl : kind = .ident := hk
  obtain ⟨hstart', -, hrest⟩ := Lexeme.read_ident hread' rfl
  -- The text of the name, and the texts around it.
  obtain ⟨rfl, hrest'⟩ : front = w ++ (gap ++ (d :: dotMore ++ gap')) ∧
      (String.ofList (c' :: more')).toList ++ back = c' :: more' ++ rest := by
    refine Text.append_inj_of_size (hsource.symm.trans ?_) ?_
    · simp
    · rw [hfront]
      simp only [ofLexeme, Text.size_append]
      omega
  rw [String.toList_ofList] at hrest'
  obtain rfl := List.append_cancel_left hrest'
  have htexts : Lexeme.Akin (gap' ++ (c' :: more' ++ back)) (gap' ++ (c :: more ++ back)) :=
    .append gap' (.stop (Lexeme.isStop_of_isNameStart hstart') (Lexeme.isStop_of_isNameStart hstart))
  have hskip := Gap.skip_replace hgap' (Gap.Mode.like_refl .blank)
    (Text.size w + Text.size gap + Text.size (d :: dotMore)) (by simp) fun _ =>
      Lexeme.endsBefore_of_isNameStart hstart (more ++ back)
  have hscans := hwithin.scans (by rw [← he]; exact if_pos rfl)
    (by rw [← he]; simp only [Edit.ofName, Edit.behind, String.toList_ofList, ofLexeme]; omega) hskip
    (Lexeme.read_name hstart hmore hrest)
    (by rw [stop_ofLexeme, behind_ident_of_dot hleft _ (String.ofList (c' :: more'))]; exact hscan)
  have hslash : d ≠ '/' := by rcases hdotChars with rfl | rfl <;> decide
  have hhash : d ≠ '#' := by rcases hdotChars with rfl | rfl <;> decide
  have hskipDot : Gap.skip .blank (Text.size w) (gap ++ (d :: dotMore ++ (gap' ++ (c :: more ++ back)))) =
      .ok (gap, d :: dotMore ++ (gap' ++ (c :: more ++ back))) :=
    Gap.skip_congr hgap (Gap.Mode.like_refl .blank) _ rfl fun hd => absurd (Option.some.inj hd) hslash
  have hscanDot := Scans.token hskipDot
    (Lexeme.read_of_akin hread htexts fun hk => absurd rfl hk) hscans
  have hall := hback _ _ (.append gap (.append (d :: dotMore) htexts))
    (.append gap (.of_head? rfl)) (Gap.head?_append_ne_hash hgap (by simpa using hhash)) hscanDot
  have htext : w ++ (gap ++ (d :: dotMore ++ gap')) ++ (c :: more ++ back) =
      w ++ (gap ++ (d :: dotMore ++ (gap' ++ (c :: more ++ back)))) := by
    simp
  rw [hmap, htext]
  exact hall

end Token

end DeferredLog
