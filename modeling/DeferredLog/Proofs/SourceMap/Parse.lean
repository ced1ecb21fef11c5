import DeferredLog.Proofs.Json
import DeferredLog.Proofs.SourceMap.Mappings
import DeferredLog.SourceMap

/-!
# Source maps read back

The text of a map is read as the map, as long as it has a line and each field of its segments fits into
32 bits. A text of no lines is one of an empty line.

* `SourceMap.toJson_eq`: the members of a map stand in the order of their keys.
* `SourceMap.parse_text`: the text of a map is read back.
-/

namespace DeferredLog.SourceMap

theorem string?_textOrNull (text : Option String) : (textOrNull text).string? = text := by
  cases text <;> rfl

theorem readable_textOrNull {depth : Nat} (text : Option String) :
    Json.Readable depth (textOrNull text) := by
  cases text with
  | none => exact .null
  | some text => exact .string text

/-- The members of a map, in the order of their keys. -/
def members (map : SourceMap) : List (String × Json) :=
  [("file", textOrNull map.file), ("mappings", .string map.mappings),
    ("names", .array (map.names.map .string)), ("sources", .array (map.sources.map .string)),
    ("sourcesContent", .array (map.contents.map textOrNull)), ("version", .integer version)]

theorem toJson_eq (map : SourceMap) : map.toJson = .object map.members := by
  simp only [toJson, Json.ofMembers, List.foldl_cons, List.foldl_nil, Json.insertMember,
    String.reduceEq, String.reduceLT, reduceIte, members]

theorem sorted_members (map : SourceMap) : map.members.Pairwise fun a b => a.1 < b.1 := by
  simp only [members, List.pairwise_cons, List.forall_mem_cons, List.not_mem_nil, String.reduceLT,
    false_implies, implies_true, and_self, List.Pairwise.nil]

theorem readable_strings {depth : Nat} (texts : List String) :
    Json.Readable (depth + 1) (.array (texts.map .string)) :=
  .array fun item hm => by
    obtain ⟨text, -, rfl⟩ := List.mem_map.mp hm
    exact .string text

theorem readable_toJson {depth : Nat} (map : SourceMap) : Json.Readable (depth + 2) map.toJson := by
  rw [toJson_eq]
  refine .object map.sorted_members ?_
  simp only [members, List.forall_mem_cons, List.not_mem_nil, false_implies, implies_true, and_true]
  refine ⟨readable_textOrNull _, .string _, readable_strings _, readable_strings _, .array ?_,
    .integer (by decide) (by decide)⟩
  intro item hm
  obtain ⟨text, -, rfl⟩ := List.mem_map.mp hm
  exact readable_textOrNull text

/-- The value of a member of a map. -/
theorem get?_members (map : SourceMap) {member : String × Json} (h : member ∈ map.members) :
    (Json.object map.members).get? member.1 = some member.2 := by
  simp only [members, List.mem_cons, List.not_mem_nil, or_false] at h
  rcases h with rfl | rfl | rfl | rfl | rfl | rfl <;> simp [Json.get?, members, List.lookup_cons]

theorem stringsAt_of_get? {json : Json} {field : String} {items : List Json}
    (h : json.get? field = some (.array items)) : stringsAt json field = items.map Json.string? := by
  rw [stringsAt, h]
  rfl

theorem required_of_get? {α : Type} {json found : Json} {field : String} {kind : Json → Option α}
    {value : α} (h : json.get? field = some found) (hkind : kind found = some value) :
    required json field kind = .ok value := by
  rw [required, h, Option.bind_some, hkind]

theorem map_string? {α : Type} {value : α → Json} {text : α → Option String}
    (h : ∀ x, (value x).string? = text x) (xs : List α) :
    (xs.map value).map Json.string? = xs.map text := by
  rw [List.map_map]
  exact List.map_congr_left fun x _ => h x

/-- A map is what its value holds. -/
theorem ofJson_toJson {map : SourceMap} (h : Mappings.decode map.mappings.toList = .ok map.lines) :
    ofJson map.toJson = .ok map := by
  have hget := fun member (h : member ∈ map.members) => map.get?_members h
  rw [← toJson_eq] at hget
  simp only [members, List.forall_mem_cons, List.not_mem_nil, false_implies, implies_true,
    and_true] at hget
  obtain ⟨hfile, hmappings, hnames, hsources, hcontents, hversion⟩ := hget
  have htexts : ∀ x : String, (Json.string x).string? = some x := fun _ => rfl
  have hversion' : required map.toJson "version" Json.natural? = .ok version :=
    required_of_get? hversion rfl
  have hmappings' : required map.toJson "mappings" Json.string? = .ok map.mappings :=
    required_of_get? hmappings rfl
  have hsources' : required map.toJson "sources" Json.array? = .ok (map.sources.map .string) :=
    required_of_get? hsources rfl
  have hsomes : (map.sources.map some).map (fun name => name.getD "") = map.sources := by
    rw [List.map_map]
    exact List.map_id' _
  have hnames' : (map.names.map some).filterMap id = map.names := by simp
  rw [ofJson, hversion', hsources', hmappings', hfile, stringsAt_of_get? hsources,
    stringsAt_of_get? hnames, stringsAt_of_get? hcontents, map_string? htexts, map_string? htexts,
    map_string? string?_textOrNull, List.map_id', Option.bind_some, string?_textOrNull, hsomes,
    hnames']
  show Mappings.decode map.mappings.toList >>= (fun lines => .ok { map with lines }) = .ok map
  rw [h]
  rfl

/-- **The text of a map is read back.** -/
theorem parse_text {map : SourceMap} (hne : map.lines ≠ [])
    (h : ∀ line ∈ map.lines, ∀ segment ∈ line, Mappings.Fits segment) :
    parse map.text = .ok map := by
  have hparse : Json.parse? map.text = some map.toJson := Json.parse?_text (readable_toJson map)
  rw [parse, hparse]
  refine ofJson_toJson ?_
  rw [mappings, String.toList_ofList]
  exact Mappings.decode_encode hne h

end DeferredLog.SourceMap
