import DeferredLog.Text.Quoted

/-!
# Faults of a source map

Why a text is no source map, and the words for it.
-/

namespace DeferredLog

/-- Why a source map cannot be read. -/
inductive MapFault where
  /-- The text is no JSON. -/
  | notJson
  /-- A member is missing, or no value of its kind. -/
  | missingField (field : String)
  /-- The version is not the one that is read here. -/
  | unsupportedVersion (version : Nat)
  /-- A character of the mappings is no digit. -/
  | invalidDigit (c : Char)
  /-- The last digit of a number says that more digits follow. -/
  | truncated
  /-- A segment has a number of fields that means nothing. -/
  | invalidSegment (fields : Nat)
  deriving DecidableEq, Repr

/-- The message of a fault. -/
def MapFault.message : MapFault → String
  | .notJson => "invalid source map JSON"
  | .missingField field => "source map is missing \"" ++ field ++ "\""
  | .unsupportedVersion version => "unsupported source map version " ++ toString version
  | .invalidDigit c => "invalid base64 digit " ++ Text.quoteChar c ++ " in mappings"
  | .truncated => "truncated VLQ value in mappings"
  | .invalidSegment fields => "mapping segment with " ++ toString fields ++ " fields"

end DeferredLog
