import DeferredLog.Proofs.Outline.Body
import DeferredLog.Proofs.Outline.Follows
import DeferredLog.Proofs.Outline.LineBreak

/-!
# Where a line break cuts something off

A line break before the body of a function or class changes what is read only if it ends an expression on the
way from the start of the program to the function or class. If it ends none, all is read as before
(`Visits.reads_breakBefore`): the brace is read for nothing else, so nothing besides the way can end there. If
it ends one, the function or class in that has no body any more, and nothing is read
(`Visits.cutsAt_of_reads`).
-/

namespace DeferredLog

open DeferredLog.Tree

namespace Outline

variable {job : Job} {parts : List Part} {items : List Item} {rest trees : List Tree} {o : Token}
  {offset size : Nat}

/-! ## Jobs that a line break cuts off -/

/-- An expression that the line break cuts off ends before a brace. -/
theorem takeExpression_cut {previous : Option Tree}
    (h : Tree.cutsAt offset previous (takeExpression previous trees).1 = true) (size : Nat) :
    ∃ x tree z, (takeExpression previous trees).1 = x ++ tree :: z ∧ tree.opensAt offset = true ∧
      (takeExpression (previous.map (·.breakBefore offset size)) (breakBeforeAll offset size trees)).1 =
        breakBeforeAll offset size x := by
  induction trees generalizing previous with
  | nil => cases h
  | cons tree trees ih =>
    rw [breakBeforeAll_cons]
    simp only [takeExpression, isPunct_breakBefore, breaksBefore_breakBefore] at h ⊢
    split at h
    · cases h
    · rename_i hgo
      rw [if_neg hgo]
      rw [cutsAt] at h
      cases hb : breaksAt offset previous tree with
      | true =>
        refine ⟨[], tree, _, rfl, ?_, ?_⟩
        · cases previous with
          | none => cases hb
          | some =>
            simp only [breaksAt, Bool.and_eq_true] at hb
            exact hb.1.1
        · rw [if_pos (by simp)]
          rfl
      | false =>
        rw [hb, Bool.false_or] at h
        obtain ⟨x, brace, z, hx, hopens, hcut⟩ := ih h
        refine ⟨tree :: x, brace, z, congrArg (tree :: ·) hx, hopens, ?_⟩
        rw [Bool.or_false, if_neg hgo]
        exact congrArg (tree.breakBefore offset size :: ·) hcut

theorem isPunct_of_opensAt {tree : Tree} (h : tree.opensAt offset = true) (text : String) :
    tree.isPunct text = false := by
  simp only [opensAt, Bool.and_eq_true, decide_eq_true_eq] at h
  cases tree with
  | leaf token => simp [isPunct, Token.isPunct, show token.kind = .openBrace from h.1]
  | group => rfl

/-- **A job that the line break cuts off has an expression that ends before the brace.** -/
theorem Rule.cut (h : Rule job parts items rest) (hcut : job.cutsAt offset = true) (size : Nat) {p : Part}
    (hp : p ∈ parts) : ∃ x tree z, p.job = .expression .nothing (x ++ tree :: z) ∧ tree.opensAt offset = true ∧
      ∀ items' rest', Reads (job.breakBefore offset size) items' rest' →
        ∃ inner after, Reads (.expression .nothing (breakBeforeAll offset size x)) inner after := by
  have form := @form_of_breakBefore offset size
  cases h
  case declaration hf =>
    rcases List.mem_singleton.mp hp with rfl
    simp only [Job.cutsAt, hf] at hcut
    obtain ⟨x, tree, z, hx, hopens, hslice⟩ := takeExpression_cut hcut size
    refine ⟨x, tree, z, congrArg _ hx, hopens, fun _ _ hr => ?_⟩
    have hrule := @Rule.declaration _ _ _ [] ((form _ _).trans hf)
    have hfollows := hrule.follows (by simp) hr
    rw [← hslice]
    exact hfollows.1
  case leave _ rest hf hn =>
    rcases List.mem_singleton.mp hp with rfl
    simp only [Job.cutsAt, hf, hn, Bool.true_and, Bool.or_eq_true] at hcut
    cases hopens : startsWith (opensAt offset) rest with
    | true =>
      -- The `return` has no value.
      cases rest with
      | nil => cases hopens
      | cons tree rest =>
        have hslice : (takeExpression none (tree :: rest)).1 = [] ++ tree :: (takeExpression (some tree) rest).1 := by
          rw [takeExpression, isPunct_of_opensAt hopens]
          rfl
        exact ⟨[], tree, _, congrArg _ hslice, hopens, fun _ _ _ => ⟨_, _, .expressionNil⟩⟩
    | false =>
      obtain ⟨x, tree, z, hx, hbrace, hslice⟩ := takeExpression_cut (hcut.resolve_left (by simp [hopens])) size
      refine ⟨x, tree, z, congrArg _ hx, hbrace, fun _ _ hr => ?_⟩
      have hrule := @Rule.leave _ _ [] ((form _ _).trans hf) ((leaves_breakBefore fun _ => hopens).trans hn)
      have hfollows := hrule.follows (by simp) hr
      rw [← hslice]
      exact hfollows.1
  case expressionStatement tree _ _ hf =>
    rcases List.mem_singleton.mp hp with rfl
    simp only [Job.cutsAt, hf] at hcut
    obtain ⟨x, brace, z, hx, hopens, hslice⟩ := takeExpression_cut hcut size
    refine ⟨tree :: x, brace, z, congrArg (Job.expression _ <| tree :: ·) hx, hopens, fun _ _ hr => ?_⟩
    have hrule := @Rule.expressionStatement _ _ [] ((form _ _).trans hf)
    have hfollows := hrule.follows (by simp) hr
    rw [breakBeforeAll_cons, ← hslice]
    exact hfollows.1
  case exportValue word value hd hf ha hc =>
    rcases List.mem_singleton.mp hp with rfl
    simp only [Job.cutsAt, starts_no_clause hd, behindWord?_cons hd, hf, ha, hc, Option.isNone_none,
      Bool.true_and, Bool.false_eq_true, if_false] at hcut
    obtain ⟨x, tree, z, hx, hopens, hslice⟩ := takeExpression_cut hcut size
    refine ⟨x, tree, z, congrArg _ hx, hopens, fun _ _ hr => ?_⟩
    have hrule := @Rule.exportValue (word.breakBefore offset size) (breakBeforeAll offset size value) []
      ((isIdent_breakBefore _ _).trans hd) (behindWord?_breakBefore_none hf)
      ((behindWords?_breakBefore _ _ _).trans (congrArg _ ha)) (behindWord?_breakBefore_none hc)
    have hfollows := hrule.follows (by simp) hr
    rw [← hslice]
    exact hfollows.1
  case exportStatement hs hd => simp [Job.cutsAt, hs, hd] at hcut
  case exportFunction hd hf => simp [Job.cutsAt, starts_no_clause hd, behindWord?_cons hd, behindWord?_cons hf] at hcut
  case exportAsync hd ha hf =>
    simp [Job.cutsAt, starts_no_clause hd, behindWord?_cons hd, behindWords?, behindWord?_cons ha,
      behindWord?_cons hf] at hcut
  case exportClass hd hc =>
    simp [Job.cutsAt, starts_no_clause hd, behindWord?_cons hd, behindWord?_cons hc] at hcut
  case bodyNil | bodyCons | blockHere | handlerNames | handler | cleanup | cleanupNone | switch | casesNil
    | casesTest | casesDefault | casesStatement | function | classBody | expressionNil | method | group
    | functionInside | classInside | staticBlock | arrowInside | plain | arrowBlock | arrowValue => cases hcut
  case exportNames | leaveBare => cases hp
  all_goals simp_all [Job.cutsAt]

/-! ## Where a line break cuts nothing off -/

/-- A clause that the line break cuts off has a brace in it. -/
theorem exists_of_clauseCutsAt {first : Bool} {after : List Tree} (h : clauseCutsAt offset first trees = true)
    (he : clauseEnd false first trees = some after) :
    ∃ x tree z, trees = x ++ tree :: (z ++ after) ∧ tree.opensAt offset = true := by
  induction trees generalizing first with
  | nil => cases h
  | cons tree trees ih =>
    rw [clauseCutsAt] at h
    rw [clauseEnd] at he
    split at h
    · cases h
    · rename_i hgo
      simp only [Bool.or_eq_true, not_or] at hgo
      rw [if_neg hgo.1.1, if_neg (by simp [hgo.1.2, hgo.2])] at he
      rcases Bool.or_eq_true_iff.mp h with hopens | h
      · obtain ⟨front, rfl, -⟩ := clauseEnd_cut he
        exact ⟨[], tree, front, rfl, (Bool.and_eq_true_iff.mp hopens).2⟩
      · obtain ⟨x, brace, z, rfl, hopens⟩ := ih h he
        exact ⟨tree :: x, brace, z, rfl, hopens⟩

theorem start_of_opensAt {tree : Tree} (h : tree.opensAt offset = true) :
    ∃ token ∈ tree.flatten, token.start = offset := by
  simp only [opensAt, Bool.and_eq_true, decide_eq_true_eq] at h
  refine ⟨tree.first, ?_, h.2⟩
  cases tree <;> simp [Tree.flatten, first]

/-- What is read for a part is read for the job. -/
theorem Rule.part_sublist (h : Rule job parts items rest) (hread : AllRead parts) {p : Part} (hp : p ∈ parts) :
    (p.job.read p.rest).Sublist (job.read rest) := by
  obtain ⟨ps, qs, rfl⟩ := List.append_of_mem hp
  obtain ⟨tail, htail⟩ := h.read hread
  rw [htail, Part.tokens_append, Part.tokens]
  exact (((List.sublist_append_left _ _).trans (List.sublist_append_right _ _)).trans
    (List.sublist_append_right _ _)).trans (List.sublist_append_left _ _)

/-- **A line break that cuts a job off stands before a brace that is read for it.** -/
theorem Reads.exists_of_cutsAt (h : Reads job items rest) (hcut : job.cutsAt offset = true) :
    ∃ token ∈ job.read rest, token.start = offset := by
  obtain ⟨parts, hrule, hread⟩ := h.rule
  cases hparts : parts with
  | nil =>
    subst hparts
    cases hrule
    case exportNames after hs he =>
      rw [Job.cutsAt, if_pos hs] at hcut
      obtain ⟨x, tree, z, rfl, hopens⟩ := exists_of_clauseCutsAt hcut he
      obtain ⟨token, htoken, hstart⟩ := start_of_opensAt hopens
      obtain ⟨y, hy⟩ := (suffix_skipSemicolon _).trans (suffix_skipAttributes after)
      have hafter := congrArg flattenAll hy
      have hread := Job.read_append h.suffix
      rw [flattenAll_append] at hafter
      simp only [Job.trees, flattenAll_append, flattenAll, ← hafter, ← List.append_assoc] at hread
      refine ⟨token, ?_, hstart⟩
      rw [← List.append_cancel_right hread]
      simp [htoken]
    all_goals simp_all [Job.cutsAt]
  | cons p more =>
    have hp : p ∈ parts := by simp [hparts]
    obtain ⟨x, tree, z, hjob, hopens, -⟩ := hrule.cut hcut 0 hp
    obtain ⟨token, htoken, hstart⟩ := start_of_opensAt hopens
    have hread := hread p hp
    rw [hjob] at hread
    refine ⟨token, (hrule.part_sublist ‹_› hp).subset ?_, hstart⟩
    rw [hjob, hread.gives.2, Job.read, Job.trees, List.length_nil, Nat.sub_zero, List.take_length]
    simp [flattenAll, htoken]

/-- A line break before a brace that is not read for a job cuts nothing off on the way. -/
theorem Visits.cutsAt_of_clear {s t : Spot} (h : Visits s t) (hs : Reads s.job items rest)
    (hclear : ∀ token ∈ s.job.read rest, token.start ≠ offset) : t.job.cutsAt offset = false := by
  obtain ⟨_, _, hreads, hsub⟩ := h.reads_sublist hs
  by_contra hcut
  rw [Bool.not_eq_false] at hcut
  obtain ⟨token, htoken, hstart⟩ := hreads.exists_of_cutsAt hcut
  exact hclear token (hsub.subset htoken) hstart

/-- A job with a brace outside of what is read for it is read as before. -/
theorem Reads.breakBefore_of_clear (h : Reads job items rest)
    (hclear : ∀ token ∈ job.read rest, token.start ≠ offset) :
    Reads (job.breakBefore offset size) (Item.mapAll (breakBeforeAll offset size) items)
      (breakBeforeAll offset size rest) :=
  h.breakBefore ⟨[], 0, job⟩ rfl fun _ hvisits => hvisits.cutsAt_of_clear h hclear

theorem Part.mem_tokens {token : Token} {p : Part} (hp : p ∈ parts) (ht : token ∈ p.job.read p.rest) :
    token ∈ Part.tokens parts := by
  obtain ⟨ps, qs, rfl⟩ := List.append_of_mem hp
  rw [Part.tokens_append, Part.tokens]
  exact List.mem_append_right _ (List.mem_append_right _ (List.mem_append_left _ ht))

theorem start_ne_of_between {a b c : List Token} {token : Token} (ho : Token.Ordered (a ++ (b ++ c)))
    (hb : o ∈ b) (ht : token ∈ a ∨ token ∈ c) : token.start ≠ o.start := by
  rcases ht with ht | ht
  · have := ho.between ht (List.mem_append_left _ hb)
    have := ho.left.nonempty token ht
    omega
  · have := ho.right.between hb ht
    have := ho.right.left.nonempty o hb
    omega

/-- A token that is read for a part is not read for another one. -/
theorem Rule.clear_of_mem {ps qs : List Part} {p : Part} (h : Rule job (ps ++ p :: qs) items rest)
    (hread : AllRead (ps ++ p :: qs)) (ho : Token.Ordered (job.read rest)) (hm : o ∈ p.job.read p.rest)
    {q : Part} (hq : q ∈ ps ∨ q ∈ qs) : ∀ token ∈ q.job.read q.rest, token.start ≠ o.start := by
  obtain ⟨tail, htail⟩ := h.read hread
  rw [htail, Part.tokens_append, Part.tokens] at ho
  have ho : Token.Ordered (Part.tokens ps ++ (p.gap ++ p.job.read p.rest ++ Part.tokens qs)) := by
    have := ho.left
    rwa [← List.append_assoc p.gap] at this
  exact fun token ht => start_ne_of_between ho (List.mem_append_right _ hm)
    (hq.imp (Part.mem_tokens · ht) (Part.mem_tokens · ht))

/-- The token that opens a body is not read for a part of the function or class. -/
theorem Job.HasBody.clear (hbody : job.HasBody o) (h : Rule job parts items rest) (hread : AllRead parts)
    (ho : Token.Ordered (job.read rest)) {p : Part} (hp : p ∈ parts) :
    ∀ token ∈ p.job.read p.rest, token.start ≠ o.start := by
  obtain ⟨tail, htail⟩ := h.read hread
  rw [htail] at ho
  have ho := ho.left
  have inner : ∀ {first second : Part}, parts = [first, second] → o ∈ second.gap →
      ∀ token ∈ p.job.read p.rest, token.start ≠ o.start := by
    rintro first second rfl hgap token ht
    have ho : Token.Ordered (first.gap ++ first.job.read first.rest ++
        (second.gap ++ second.job.read second.rest)) := by
      simpa [Part.tokens, Part.read, Job.read] using ho
    refine start_ne_of_between ho hgap ?_
    rcases List.mem_pair.mp hp with rfl | rfl
    · exact .inl (List.mem_append_right _ ht)
    · exact .inr ht
  cases hbody with
  | function hn =>
    revert inner
    generalize hparts : parts = parts' at h
    cases h with
    | function hn' =>
      cases hn'.symm.trans hn
      exact fun inner => inner rfl (by simp)
  | classBody hn hbrace =>
    revert inner
    generalize hparts : parts = parts' at h
    cases h with
    | classBody hn' hc =>
      have hmore := congrArg Prod.snd (hn'.symm.trans hn)
      dsimp only at hmore
      rw [hmore, cutAtBrace_of_no_brace hbrace] at hc
      cases hc
      cases List.append_cancel_left hmore
      exact fun inner => inner rfl (by simp)

/-- The parts of a rule stand one behind the other with a line break before a brace, too. -/
theorem exists_parts {parts' ps qs : List Part} {p : Part}
    (h : parts'.map Part.outcome = ((ps ++ p :: qs).map (Part.breakBefore offset size)).map Part.outcome) :
    ∃ ps' p' qs', parts' = ps' ++ p' :: qs' ∧ p'.outcome = (p.breakBefore offset size).outcome ∧
      ps'.map Part.outcome = (ps.map (Part.breakBefore offset size)).map Part.outcome := by
  rw [List.map_append, List.map_append, List.map_cons, List.map_cons] at h
  obtain ⟨ps', more, rfl, hps, hmore⟩ := List.map_eq_append_iff.mp h
  obtain ⟨p', qs', rfl, hp, -⟩ := List.map_eq_cons_iff.mp hmore
  exact ⟨ps', p', qs', rfl, hp, hps⟩

/-- **What the walk comes through on the way to a function or class is read as before**, if the line break
before its body cuts nothing off on this way. -/
theorem Visits.reads_breakBefore {s u : Spot} (h : Visits s u) (hu : u.job.HasBody o)
    (hs : Reads s.job items rest) (ho : Token.Ordered (s.job.read rest))
    (hcut : ∀ t, Visits s t → Visits t u → t.job.cutsAt o.start = false) :
    Reads (s.job.breakBefore o.start size) (Item.mapAll (breakBeforeAll o.start size) items)
      (breakBeforeAll o.start size rest) := by
  induction h using Relation.ReflTransGen.head_induction_on generalizing items rest with
  | refl =>
    obtain ⟨parts, hrule, hread⟩ := hs.rule
    obtain ⟨parts', hrule', hsame⟩ := @Rule.breakBefore o.start size _ _ _ _ hrule (hcut u .refl .refl)
    exact hrule'.reads (allRead_breakBefore hsame fun p hp =>
      (hread p hp).breakBefore_of_clear (hu.clear hrule hread ho hp))
  | @head s t hleads hvisits ih =>
    obtain ⟨parts, _, _, hrule, hread, hmem⟩ := hleads
    obtain ⟨rfl, rfl⟩ := hs.unique (hrule.reads hread)
    have hstep : Leads s t := ⟨parts, _, _, hrule, hread, hmem⟩
    obtain ⟨ps, p, qs, rfl, rfl⟩ := exists_split hmem
    obtain ⟨parts', hrule', hsame⟩ :=
      @Rule.breakBefore o.start size _ _ _ _ hrule (hcut s .refl (.head hstep hvisits))
    have hp := hread p (by simp)
    have hpart := ih hp (ho.sublist (hrule.part_sublist hread (by simp))) fun t ht => hcut t (.head hstep ht)
    refine hrule'.reads (allRead_breakBefore hsame fun q hq => ?_)
    have hclear := fun hq => @Rule.clear_of_mem _ _ _ o ps qs p hrule hread ho (Visits.mem_read hvisits hu hp) q hq
    rcases List.mem_append.mp hq with hq' | hq'
    · exact (hread q hq).breakBefore_of_clear (hclear (.inl hq'))
    · rcases List.mem_cons.mp hq' with rfl | hq'
      · exact hpart
      · exact (hread q hq).breakBefore_of_clear (hclear (.inr hq'))

/-- The delimiters of a part fit. -/
theorem Rule.part_paired (h : Rule job parts items rest) (hread : AllRead parts) {around : Option Delimiter}
    (hpaired : PairedAll around job.trees) {p : Part} (hp : p ∈ parts) :
    ∃ around', PairedAll around' p.job.trees := by
  obtain ⟨s, hs, hjob⟩ := exists_spot hp [] 0
  obtain ⟨_, hrun⟩ := h.stands hread s hs
  rw [hjob] at hrun
  exact hrun.paired hpaired

/-- The tree that starts with the brace at an offset is the group that a token there opens. -/
theorem exists_group_of_opensAt {tree : Tree} (hopens : tree.opensAt o.start = true)
    {around : Option Delimiter} (hpaired : tree.Paired around) {a b : List Token}
    (ho : Token.Ordered (a ++ (tree.flatten ++ b))) (hm : o ∈ a ++ (tree.flatten ++ b)) :
    ∃ d inside, tree = .group .brace o d inside ∧ o ∉ a ∧ o ∉ flattenAll inside ∧ o ∉ b := by
  simp only [opensAt, Bool.and_eq_true, decide_eq_true_eq] at hopens
  obtain ⟨hkind, hstart⟩ := hopens
  cases tree with
  | leaf token => simp [Paired, show token.kind = .openBrace from hkind, opened?] at hpaired
  | group delimiter opening closing inside =>
    obtain rfl : delimiter = .brace := by
      have := hpaired.1
      rw [show opening.kind = .openBrace from hkind] at this
      exact (Option.some.inj this).symm
    obtain rfl : opening = o := by
      by_contra hne
      have := ho.apart_of_ne (by simp [Tree.flatten]) hm hne
      have := ho.nonempty opening (by simp [Tree.flatten])
      have := ho.nonempty o hm
      change opening.start = o.start at hstart
      omega
    rw [Tree.flatten, List.cons_append] at ho
    obtain ⟨ha, hb⟩ := ho.not_mem
    simp only [List.mem_append, not_or] at hb
    exact ⟨closing, inside, rfl, ha, hb.1.1, hb.2⟩

/-- **A job that the line break cuts off before the body of a function or class cannot be read** with the line
break. -/
theorem Visits.not_reads_of_cutsAt {s u : Spot} (h : Visits s u) (hu : u.job.HasBody o)
    (hs : Reads s.job items rest) (ho : Token.Ordered (s.job.read rest)) {around : Option Delimiter}
    (hpaired : PairedAll around s.job.trees) (hcut : s.job.cutsAt o.start = true) {items' : List Item}
    {rest' : List Tree} : ¬ Reads (s.job.breakBefore o.start size) items' rest' := by
  intro hr
  rcases Relation.ReflTransGen.cases_head h with rfl | ⟨t, ⟨parts, _, _, hrule, hread, hmem⟩, hvisits⟩
  · cases hjob : s.job <;> rw [hjob] at hu hcut <;> cases hu <;> cases hcut
  obtain ⟨rfl, rfl⟩ := hs.unique (hrule.reads hread)
  obtain ⟨p, hp, hjob⟩ := job_mem_of_spots hmem
  obtain ⟨x, tree, z, hslice, hopens, hbroken⟩ := hrule.cut hcut size hp
  obtain ⟨inner, after, hinner⟩ := hbroken _ _ hr
  obtain ⟨around', hpaired'⟩ := hrule.part_paired hread hpaired hp
  have hpart := hread p hp
  have hall : p.job.read p.rest = flattenAll x ++ (tree.flatten ++ flattenAll z) := by
    rw [hslice] at hpart
    rw [hslice, hpart.gives.2, Job.read, Job.trees, List.length_nil, Nat.sub_zero, List.take_length,
      flattenAll_append, flattenAll]
  have ho' := ho.sublist (hrule.part_sublist hread hp)
  have hm := Visits.mem_read hvisits hu (hjob.symm ▸ hpart)
  rw [hjob, hall] at hm
  rw [hall] at ho'
  rw [hslice, Job.trees, pairedAll_append] at hpaired'
  obtain ⟨d, inside, rfl, hx, hi, hz⟩ := exists_group_of_opensAt hopens hpaired'.2.1 ho' hm
  have hself : breakBeforeAll o.start size x = x := mapAll_eq_self x fun token ht => by
    have := ho'.between ht (show o ∈ _ by simp [Tree.flatten])
    have := ho'.left.nonempty token ht
    exact Token.breakBefore_of_lt (by omega)
  rw [hself] at hinner
  exact not_reads_of_cut hi hx hz hu ⟨t, u, hjob.trans hslice, rfl, hvisits⟩ hinner

/-- A block that is read does not start with parentheses. -/
theorem Reads.block_starts (h : Reads job items rest) (hjob : job.breakBefore offset size = .block trees) :
    startsWith (isGroup .paren) trees = false := by
  cases h <;> cases hjob
  rfl

/-- **On the way to a function or class nothing is cut off** by the line break before its body if all can be
read. -/
theorem Visits.cutsAt_of_reads {s t u : Spot} (h : Visits s t) (htu : Visits t u) (hu : u.job.HasBody o)
    (hs : Reads s.job items rest) (ho : Token.Ordered (s.job.read rest)) {around : Option Delimiter}
    (hpaired : PairedAll around s.job.trees) {items' : List Item} {rest' : List Tree}
    (hr : Reads (s.job.breakBefore o.start size) items' rest') : t.job.cutsAt o.start = false := by
  induction h using Relation.ReflTransGen.head_induction_on generalizing items rest around items' rest' with
  | refl =>
    by_contra hcut
    rw [Bool.not_eq_false] at hcut
    exact htu.not_reads_of_cutsAt hu hs ho hpaired hcut hr
  | @head s t' hleads hvisits ih =>
    have hcut : s.job.cutsAt o.start = false := by
      by_contra hcut
      rw [Bool.not_eq_false] at hcut
      exact Visits.not_reads_of_cutsAt (.head hleads (hvisits.trans htu)) hu hs ho hpaired hcut hr
    obtain ⟨parts, _, _, hrule, hread, hmem⟩ := hleads
    obtain ⟨rfl, rfl⟩ := hs.unique (hrule.reads hread)
    obtain ⟨ps, p, qs, rfl, rfl⟩ := exists_split hmem
    obtain ⟨around', hpaired'⟩ := hrule.part_paired hread hpaired (List.mem_append_right _ List.mem_cons_self)
    obtain ⟨parts', hrule', hsame⟩ := @Rule.breakBefore o.start size _ _ _ _ hrule hcut
    have hp := hread p (by simp)
    have hfollows := hrule'.follows (fun p' hp' trees hjob => by
      obtain ⟨q, hq, hsame⟩ := exists_part hsame hp'
      exact (hread q hq).block_starts ((congrArg Prod.fst hsame).symm.trans hjob)) hr
    obtain ⟨ps', p', qs', rfl, hp', hps⟩ := exists_parts hsame
    have hclear := fun q hq => @Rule.clear_of_mem _ _ _ o ps qs p hrule hread ho
      (Visits.mem_read (hvisits.trans htu) hu hp) q (.inl hq)
    obtain ⟨_, _, hpart⟩ := hfollows.part (allRead_breakBefore hps fun q hq =>
      (hread q (List.mem_append_left _ hq)).breakBefore_of_clear (hclear q hq))
    rw [show p'.job = p.job.breakBefore o.start size from congrArg Prod.fst hp'] at hpart
    exact ih hp (ho.sublist (hrule.part_sublist hread (by simp))) hpaired' hpart

end Outline

end DeferredLog
