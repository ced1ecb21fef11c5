import DeferredLog.Proofs.Outline.Sites

/-!
# What can be read along a rule

Readers look at the front of their trees and take one way. So if a job can be read at all, every rule for it
with parts that are read as it says is the way that is taken: the next part can be read too. This tells from
one part that cannot be read that the job cannot.

* `Rule.follows`: the parts of a rule can be read one after another if the job can.
* `Follows.part`: the next part, behind some that are read.
-/

namespace DeferredLog

open DeferredLog.Tree

namespace Outline

variable {job : Job} {parts : List Part} {items : List Item} {rest : List Tree}

/-- Whether parts can be read one after another, as far as each gives what it is said to give. -/
def Follows : List Part → Prop
  | [] => True
  | p :: parts => (∃ items rest, Reads p.job items rest) ∧ (Reads p.job p.items p.rest → Follows parts)

theorem follows_cons {p : Part} (h : Reads p.job items rest)
    (ht : Reads p.job p.items p.rest → Follows parts) : Follows (p :: parts) :=
  ⟨⟨_, _, h⟩, ht⟩

theorem follows_one {p : Part} (h : Reads p.job items rest) : Follows [p] :=
  follows_cons h fun _ => trivial

/-- Behind parts that are read the next one can be read. -/
theorem Follows.part {ps qs : List Part} {p : Part} (h : Follows (ps ++ p :: qs)) (hp : AllRead ps) :
    ∃ items rest, Reads p.job items rest := by
  induction ps with
  | nil => exact h.1
  | cons q ps ih =>
    exact ih (h.2 (hp q List.mem_cons_self)) fun r hr => hp r (List.mem_cons_of_mem _ hr)

/-- What is read for a default export. -/
theorem Reads.exportDefault {word : Tree} {value : List Tree} (h : Reads (.exported (word :: value)) items rest)
    (hd : word.isIdent "default" = true) :
    match behindWord? "function" value, behindWords? "async" "function" value, behindWord? "class" value with
    | some more, _, _ => Reads (.function true more) items rest
    | none, some more, _ => Reads (.function true more) items rest
    | none, none, some more => Reads (.classBody true more) items rest
    | none, none, none => Reads (.expression .nothing (takeExpression none value).1) items [] := by
  have same : ∀ {value'}, behindWord? "default" (word :: value) = some value' → value' = value := fun hd' =>
    Option.some.inj (hd'.symm.trans (behindWord?_cons hd))
  cases h with
  | exportNames hs => exact absurd ((starts_no_clause hd _).symm.trans hs) nofun
  | exportStatement _ hd' => exact absurd ((behindWord?_cons hd).symm.trans hd') nofun
  | exportFunction _ hd' hf h₁ =>
    obtain rfl := same hd'
    rwa [hf]
  | exportAsync _ hd' hf ha h₁ =>
    obtain rfl := same hd'
    rwa [hf, ha]
  | exportClass _ hd' hf ha hc h₁ =>
    obtain rfl := same hd'
    rwa [hf, ha, hc]
  | exportValue _ hd' hf ha hc h₁ =>
    obtain rfl := same hd'
    rwa [hf, ha, hc]

/-- **The parts of a rule can be read if the job can**, however that is read. A handler with parameters is no
block. -/
theorem Rule.follows (h : Rule job parts items rest)
    (hblock : ∀ p ∈ parts, ∀ trees, p.job = .block trees → startsWith (isGroup .paren) trees = false)
    {items' : List Item} {rest' : List Tree} (hr : Reads job items' rest') : Follows parts := by
  cases h
  case bodyNil | empty | leaveBare | jump | debugger | importClause | cleanupNone | casesNil | exportNames
    | expressionNil => exact trivial
  case bodyCons =>
    cases hr with
    | bodyCons h₁ h₂ => exact follows_cons h₁ fun h => follows_one ((h₁.unique h).2 ▸ h₂)
  case block hf | functionDeclaration hf | asyncFunction hf | classDeclaration hf | exportClause hf
    | labelled hf => exact follows_one (hr.form hf)
  case ifElse hf hw =>
    obtain ⟨_, _, _, _, _, _, _, hp, h₁, h₂, h₃⟩ := hr.form hf
    cases hp
    refine follows_cons h₁ fun _ => follows_cons h₂ fun h => ?_
    rw [(h₂.unique h).2, behindWord?_cons hw] at h₃
    rcases h₃ with ⟨_, _, hb, h₃, -⟩ | ⟨hb, -⟩
    · exact follows_one (Option.some.inj hb ▸ h₃)
    · cases hb
  case ifOnly hf _ =>
    obtain ⟨_, _, _, _, _, _, _, hp, h₁, h₂, -⟩ := hr.form hf
    cases hp
    exact follows_cons h₁ fun _ => follows_one h₂
  case whileLoop hf | switchCases hf =>
    obtain ⟨_, _, _, _, _, _, hp, h₁, h₂, -⟩ := hr.form hf
    cases hp
    exact follows_cons h₁ fun _ => follows_one h₂
  case doWhile hf hw =>
    obtain ⟨_, _, _, _, _, _, _, h₁, hb, h₂, -⟩ := hr.form hf
    refine follows_cons h₁ fun h => ?_
    rw [(h₁.unique h).2, behindWord?_cons hw] at hb
    cases hb
    exact follows_one h₂
  case forLoop hf hs =>
    obtain ⟨_, _, _, _, _, _, hs', h₁, h₂, -⟩ := hr.form hf
    cases hs.symm.trans hs'
    exact follows_cons h₁ fun _ => follows_one h₂
  case tryCatch hf hw =>
    obtain ⟨_, _, h₁, h₂⟩ := hr.form hf
    refine follows_cons h₁ fun h => ?_
    rw [(h₁.unique h).2, behindWord?_cons hw] at h₂
    rcases h₂ with ⟨_, _, _, _, hb, h₂, h₃, -⟩ | ⟨_, hb, -⟩
    · cases hb
      exact follows_cons h₂ fun h => follows_one ((h₂.unique h).2 ▸ h₃)
    · cases hb
  case tryOnly hf hw =>
    obtain ⟨_, _, h₁, h₂⟩ := hr.form hf
    refine follows_cons h₁ fun h => ?_
    rw [(h₁.unique h).2, hw] at h₂
    rcases h₂ with ⟨_, _, _, _, hb, -⟩ | ⟨_, -, h₂, -⟩
    · cases hb
    · exact follows_one h₂
  case declaration hf | expressionStatement hf =>
    obtain ⟨_, h₁, -⟩ := hr.form hf
    exact follows_one h₁
  case leave hf hn =>
    rcases hr.form hf with ⟨-, h₁, -⟩ | ⟨hn', -⟩
    · exact follows_one h₁
    · cases hn.symm.trans hn'
  case blockHere => cases hr with | blockHere h₁ => exact follows_one h₁
  case handlerNames =>
    cases hr with
    | handlerNames h₁ => exact follows_one h₁
    | handler h₁ => cases h₁
  case handler =>
    cases hr with
    | handlerNames => cases hblock _ List.mem_cons_self _ rfl
    | handler h₁ => exact follows_one h₁
  case cleanup hw =>
    cases hr with
    | cleanup hb h₁ =>
      rw [behindWord?_cons hw] at hb
      exact follows_one (Option.some.inj hb ▸ h₁)
    | cleanupNone hb =>
      rw [behindWord?_cons hw] at hb
      cases hb
  case switch => cases hr with | switch h₁ => exact follows_one h₁
  case casesTest hc ht _ =>
    generalize _ ++ _ :: _ = trees at ht hr
    cases hr with
    | casesTest _ ht' h₁ h₂ =>
      cases ht.symm.trans ht'
      exact follows_cons h₁ fun _ => follows_one h₂
    | casesDefault hc' | casesStatement hc' => cases hc.symm.trans hc'
  case casesDefault hc hd hcolon =>
    cases hr with
    | casesTest hc' => cases hc.symm.trans hc'
    | casesDefault _ _ h₁ => exact follows_one h₁
    | casesStatement _ hd' => simp [hd, startsWith, hcolon] at hd'
  case casesStatement hc hd =>
    cases hr with
    | casesTest hc' => cases hc.symm.trans hc'
    | casesDefault _ hd' => cases hd.symm.trans hd'
    | casesStatement _ _ h₁ h₂ => exact follows_cons h₁ fun h => follows_one ((h₁.unique h).2 ▸ h₂)
  case function hn =>
    generalize _ ++ _ :: _ = trees at hn hr
    cases hr with
    | function hn' h₁ h₂ =>
      cases hn.symm.trans hn'
      exact follows_cons h₁ fun _ => follows_one h₂
  case classBody hn hc =>
    replace hc := (congrArg (cutAtBrace ·.2) hn).trans hc
    generalize _ ++ (_ ++ _ :: _) = trees at hc hr
    cases hr with
    | classBody hc' h₁ h₂ =>
      cases hc.symm.trans hc'
      exact follows_cons h₁ fun _ => follows_one h₂
  case exportStatement hs hd =>
    cases hr with
    | exportStatement _ _ h₁ => exact follows_one h₁
    | exportNames hs' => cases hs.symm.trans hs'
    | exportFunction _ hd' | exportAsync _ hd' | exportClass _ hd' | exportValue _ hd' =>
      cases hd.symm.trans hd'
  case exportFunction hd hf =>
    have h := hr.exportDefault hd
    rw [behindWord?_cons hf] at h
    exact follows_one h
  case exportAsync word' word'' rest hd ha hf =>
    have h := hr.exportDefault hd
    have hboth : behindWords? "async" "function" (word' :: word'' :: rest) = some rest := by
      rw [behindWords?, behindWord?_cons ha]
      exact behindWord?_cons hf
    rw [behindWord?_other ha (by decide), hboth] at h
    exact follows_one h
  case exportClass word' rest hd hc =>
    have h := hr.exportDefault hd
    have hboth : behindWords? "async" "function" (word' :: rest) = none := by
      rw [behindWords?, behindWord?_other hc (by decide)]
      rfl
    rw [behindWord?_other hc (by decide), hboth, behindWord?_cons hc] at h
    exact follows_one h
  case exportValue hd hf ha hc =>
    have h := hr.exportDefault hd
    rw [hf, ha, hc] at h
    exact follows_one h
  case method =>
    cases hr with
    | method h₁ h₂ h₃ => exact follows_cons h₁ fun _ => follows_cons h₂ fun _ => follows_one h₃
    | group hm => cases hm rfl
  case group hm =>
    obtain ⟨-, _, _, h₁, h₂, -⟩ := hr.group_inv hm
    exact follows_cons h₁ fun _ => follows_one h₂
  case functionInside hi | classInside hi | arrowInside hi =>
    obtain ⟨-, _, _, _, h₁, h₂, -⟩ := hr.inner hi
    exact follows_cons h₁ fun h => follows_one ((h₁.unique h).2 ▸ h₂)
  case staticBlock hi =>
    obtain ⟨-, _, _, _, _, _, _, hp, h₁, h₂, -⟩ := hr.inner hi
    cases hp
    exact follows_cons h₁ fun _ => follows_one h₂
  case plain hi => exact follows_one (hr.inner hi).2
  case arrowBlock =>
    cases hr with
    | arrowBlock _ h₁ => exact follows_one h₁
    | arrowValue _ hb => cases hb
  case arrowValue hb =>
    cases hr with
    | arrowBlock => cases hb
    | arrowValue _ _ h₁ => exact follows_one h₁

/-! ## Ways -/

section Ways

variable {before : Before} {token : Token} {tree : Tree} {rest out : List Tree} {items : List Item}
  (a : List Token) (n : Nat)

/-- The walk comes from a body to its first statement. -/
theorem leads_statement (h : Reads (.body (tree :: rest)) items out) :
    Leads ⟨a, n, .body (tree :: rest)⟩ ⟨a, n, .statement (tree :: rest)⟩ := by
  obtain ⟨parts, hrule, hread⟩ := h.rule
  cases hrule with
  | bodyCons => exact ⟨_, _, _, .bodyCons, hread, by simp [spots]⟩

/-- From an expression statement to its expression. -/
theorem leads_expression (h : Reads (.statement (tree :: rest)) items out)
    (hform : Form.of tree rest = .expression) : Leads ⟨a, n, .statement (tree :: rest)⟩
      ⟨a, n, .expression .nothing (tree :: (takeExpression (some tree) rest).1)⟩ := by
  obtain ⟨parts, hrule, hread⟩ := h.rule
  cases hrule with
  | expressionStatement hf => exact ⟨_, _, _, .expressionStatement hf, hread, by simp [spots]⟩
  | _ => simp_all

/-- From a leaf that announces nothing to the trees behind it. -/
theorem leads_plain (h : Reads (.expression before (.leaf token :: rest)) items out)
    (hinner : Inner.of before token rest = .plain) : Leads ⟨a, n, .expression before (.leaf token :: rest)⟩
      ⟨a ++ [token], n, .expression (.of (.leaf token)) rest⟩ := by
  obtain ⟨parts, hrule, hread⟩ := h.rule
  cases hrule with
  | plain hi => exact ⟨_, _, _, .plain hi, hread, by simp [spots]⟩
  | _ => simp_all

/-- From an arrow to its function. -/
theorem leads_arrow (h : Reads (.expression before (.leaf token :: rest)) items out)
    (hinner : Inner.of before token rest = .arrow) : Leads ⟨a, n, .expression before (.leaf token :: rest)⟩
      ⟨a ++ [token], n, .arrow before rest⟩ := by
  obtain ⟨parts, hrule, hread⟩ := h.rule
  cases hrule with
  | arrowInside hi => exact ⟨_, _, _, .arrowInside hi, hread, by simp [spots]⟩
  | _ => simp_all

/-- From the word `function` to the function. -/
theorem leads_function (h : Reads (.expression before (.leaf token :: rest)) items out)
    (hinner : Inner.of before token rest = .function) : Leads ⟨a, n, .expression before (.leaf token :: rest)⟩
      ⟨a ++ [token], n, .function false rest⟩ := by
  obtain ⟨parts, hrule, hread⟩ := h.rule
  cases hrule with
  | functionInside hi => exact ⟨_, _, _, .functionInside hi, hread, by simp [spots]⟩
  | _ => simp_all

/-- From brackets to what stands inside. -/
theorem leads_inside {opening closing : Token} {inside : List Tree}
    (h : Reads (.expression before (.group .bracket opening closing inside :: rest)) items out) :
    Leads ⟨a, n, .expression before (.group .bracket opening closing inside :: rest)⟩
      ⟨a ++ [opening], n, .expression .nothing inside⟩ := by
  obtain ⟨parts, hrule, hread⟩ := h.rule
  cases hrule with
  | group hm => exact ⟨_, _, _, .group hm, hread, by simp [spots]⟩

end Ways

end Outline

end DeferredLog
