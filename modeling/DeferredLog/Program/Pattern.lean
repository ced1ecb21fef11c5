import DeferredLog.Token.Keyword
import DeferredLog.Tree

/-!
# Names bound by a pattern

A parameter, a declarator or a caught value is a binding pattern: a name, or names inside brackets
and braces, each with an optional default behind an equals sign. `boundNames` lists the names that a
pattern binds, `parameterNames` those of the patterns between commas.
-/

namespace DeferredLog

namespace Tree

/-- The names that a binding pattern binds. A property of an object pattern binds what stands
behind its first colon, or itself. -/
def boundNames (pattern : List Tree) : List String :=
  match hcut : (cutAt (isPunct "=") pattern).1 with
  | [] => []
  | first :: rest =>
    have hweight : first.weight + weights rest ≤ weights pattern := by
      simpa [hcut] using weights_cutAt_fst_le (isPunct "=") pattern
    have := weight_pos first
    if first.isPunct "..." then boundNames rest
    else
      match first with
      | .leaf token =>
        if token.kind = .ident && rest.isEmpty && !isReserved token.text then [token.text] else []
      | .group .bracket _ _ inside =>
        (betweenCommas inside).attach.flatMap fun piece =>
          have := weights_pieces_le piece.property
          boundNames piece.val
      | .group .brace _ _ inside =>
        (betweenCommas inside).attach.flatMap fun piece =>
          have := weights_pieces_le piece.property
          match hvalue : (cutAt (isPunct ":") piece.val).2 with
          | some value =>
            have := weights_cutAt_snd_lt hvalue
            boundNames value
          | none =>
            have := weights_cutAt_fst_le (isPunct ":") piece.val
            boundNames (cutAt (isPunct ":") piece.val).1
      | _ => []
termination_by weights pattern
decreasing_by
  · omega
  all_goals
    simp only [weight] at hweight
    omega

/-- The names that the patterns between commas bind. -/
def parameterNames (trees : List Tree) : List String :=
  (betweenCommas trees).flatMap boundNames

end Tree

end DeferredLog
