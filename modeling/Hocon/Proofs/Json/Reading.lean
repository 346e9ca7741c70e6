import Hocon.Config
import Hocon.Proofs.Concat
import Hocon.Proofs.Json.Lexing
import Hocon.Proofs.Keys
import Hocon.Proofs.Parsing
import Hocon.Proofs.Resolution.Outcome

namespace Hocon

namespace Json.Value

mutual

/-- The configuration value that a JSON value writes. -/
def toValue : Json.Value → Hocon.Value
  | .null => .null
  | .text content => .text content
  | .array items => .array (itemsToValue items)
  | .object fields => .object (fieldsToValue fields)

def itemsToValue : List Json.Value → List Hocon.Value
  | [] => []
  | value :: rest => value.toValue :: itemsToValue rest

def fieldsToValue : List (String × Json.Value) → Object
  | [] => []
  | (key, value) :: rest => (key, value.toValue) :: fieldsToValue rest

end

end Json.Value

namespace Value

mutual

/-- A resolved value has a JSON value, which writes it and no other. -/
theorem toJson_of_resolved (value : Value) (resolved : value.containsPending = false) :
    ∃ json, value.toJson = .ok json ∧ json.toValue = value := by
  cases value with
  | null => exact ⟨.null, rfl, rfl⟩
  | text content => exact ⟨.text content, rfl, rfl⟩
  | array items =>
    obtain ⟨json, done, back⟩ := itemsToJson_of_resolved items resolved
    refine ⟨.array json, ?_, by rw [Json.Value.toValue, back]⟩
    rw [toJson, done]
    rfl
  | object fields =>
    obtain ⟨json, done, back⟩ := fieldsToJson_of_resolved fields resolved
    refine ⟨.object json, ?_, by rw [Json.Value.toValue, back]⟩
    rw [toJson, done]
    rfl
  | reference target => cases resolved
  | concat pieces => cases resolved

private theorem itemsToJson_of_resolved (items : List Value) (resolved : itemsContainPending items = false) :
    ∃ json, itemsToJson items = .ok json ∧ Json.Value.itemsToValue json = items := by
  cases items with
  | nil => exact ⟨[], rfl, rfl⟩
  | cons value rest =>
    obtain ⟨first, others⟩ := Bool.or_eq_false_iff.mp resolved
    obtain ⟨json, done, back⟩ := toJson_of_resolved value first
    obtain ⟨more, further, behind⟩ := itemsToJson_of_resolved rest others
    refine ⟨json :: more, ?_, by rw [Json.Value.itemsToValue, back, behind]⟩
    rw [itemsToJson, done, further]
    rfl

private theorem fieldsToJson_of_resolved (fields : Object) (resolved : fieldsContainPending fields = false) :
    ∃ json, fieldsToJson fields = .ok json ∧ Json.Value.fieldsToValue json = fields := by
  cases fields with
  | nil => exact ⟨[], rfl, rfl⟩
  | cons field rest =>
    obtain ⟨key, value⟩ := field
    obtain ⟨first, others⟩ := Bool.or_eq_false_iff.mp resolved
    obtain ⟨json, done, back⟩ := toJson_of_resolved value first
    obtain ⟨more, further, behind⟩ := fieldsToJson_of_resolved rest others
    refine ⟨(key, json) :: more, ?_, by rw [Json.Value.fieldsToValue, back, behind]⟩
    rw [fieldsToJson, done, further]
    rfl

end

end Value

namespace Json

variable {breaks gap tokens : List Token} {includer : Includer}

/-- What comes behind an element: a comma before the next one, or what closes the container. -/
private theorem headD_parts (breaks : List Token) (elements : List (List Token)) (closing : Token)
    (tokens : List Token) (newlines : ∀ token ∈ gap, token = .newline) :
    (parts breaks (.comma :: breaks) elements ++ (gap ++ closing :: tokens)).headD .endOfText ∈
      [.comma, .newline, closing] := by
  cases elements with
  | cons first rest => simp [parts]
  | nil =>
    cases gap with
    | nil => simp [parts]
    | cons token gap => simp [parts, newlines token List.mem_cons_self]

private theorem starts_tokens (value : Value) (more : List Token) :
    ((value.tokens breaks ++ more).headD .endOfText).startsValue = true := by
  cases value <;> rfl

theorem not_starts {closing : Token} (ends : closing.startsValue = false)
    (following : tokens.headD .endOfText ∈ [.comma, .newline, closing]) :
    (tokens.headD .endOfText).startsValue = false := by
  simp only [List.mem_cons, List.not_mem_nil, or_false] at following
  rcases following with same | same | same <;> rw [same]
  · rfl
  · rfl
  · exact ends

private theorem separators_comma (newlines : ∀ token ∈ breaks, token = .newline) :
    ∀ token ∈ Token.comma :: breaks, token.isSeparator = true := by
  intro token member
  rcases List.mem_cons.mp member with rfl | member
  · rfl
  · rw [newlines token member]
    rfl

theorem separators_newlines (newlines : ∀ token ∈ gap, token = .newline) :
    ∀ token ∈ gap, token.isSeparator = true := by
  intro token member
  rw [newlines token member]
  rfl

private theorem newlines_closing (newlines : ∀ token ∈ breaks, token = .newline)
    (elements : List (List Token)) :
    ∀ token ∈ (if elements.isEmpty then [] else breaks), token = .newline := by
  intro token member
  cases elements with
  | nil => cases member
  | cons first rest => exact newlines token member

private theorem spells_array {items : List Value} {stream : Stream}
    (spells : stream.Spells ((Value.array items).tokens breaks ++ tokens)) :
    stream.Spells (.leftBracket :: (parts breaks breaks (Value.itemTokens breaks items) ++
      ((if (Value.itemTokens breaks items).isEmpty then [] else breaks) ++ .rightBracket :: tokens))) := by
  simpa [Value.tokens, inside] using spells

private theorem spells_object {fields : List (String × Value)} {stream : Stream}
    (spells : stream.Spells ((Value.object fields).tokens breaks ++ tokens)) :
    stream.Spells (.leftBrace :: (parts breaks breaks (Value.fieldTokens breaks fields) ++
      ((if (Value.fieldTokens breaks fields).isEmpty then [] else breaks) ++ .rightBrace :: tokens))) := by
  simpa [Value.tokens, inside] using spells

mutual

private theorem parses_value (newlines : ∀ token ∈ breaks, token = .newline) (value : Value)
    (distinct : value.toValue.keysDistinct = true)
    {tokens : List Token} (ends : (tokens.headD .endOfText).startsValue = false)
    {stream : Stream} (spells : stream.Spells (value.tokens breaks ++ tokens)) :
    Parses (stream.value includer) value.toValue tokens := by
  cases value with
  | null =>
    refine Stream.parses_single (Stream.parses_text (.inl rfl) spells) ends ?_
    rw [spells.token_eq]
    rfl
  | text content =>
    refine Stream.parses_single (Stream.parses_text (.inr rfl) spells) ends ?_
    rw [spells.token_eq]
    exact joinPieces_alone nofun
  | array items =>
    refine Stream.parses_single (Stream.parses_array (spells_array spells) ?_) ends rfl
    intro opened next further
    exact parses_items newlines items distinct (separators_newlines newlines)
      (newlines_closing newlines _) further
  | object fields =>
    obtain ⟨different, inner⟩ := Bool.and_eq_true_iff.mp distinct
    have parsed : Parses (stream.piece includer) (.object (Entry.build _)) tokens :=
      Stream.parses_object (spells_object spells) fun next further =>
        parses_fields newlines fields inner (separators_newlines newlines)
          (newlines_closing newlines _) further
    rw [Object.build_entries (of_decide_eq_true different)] at parsed
    exact Stream.parses_single parsed ends rfl

private theorem parses_items (newlines : ∀ token ∈ breaks, token = .newline) (items : List Value)
    (distinct : Value.itemsKeysDistinct (Value.itemsToValue items) = true)
    {lead gap tokens : List Token} (separators : ∀ token ∈ lead, token.isSeparator = true)
    (closing : ∀ token ∈ gap, token = .newline) {opened : Position} {stream : Stream}
    (spells : stream.Spells
      (parts breaks lead (Value.itemTokens breaks items) ++ (gap ++ .rightBracket :: tokens))) :
    Parses (stream.items includer opened) (Value.itemsToValue items) tokens := by
  cases items with
  | nil => exact Stream.parses_items_end (separators_newlines closing) spells
  | cons value rest =>
    obtain ⟨first, others⟩ := Bool.and_eq_true_iff.mp distinct
    have led : stream.Spells (lead ++ (value.tokens breaks ++
        (parts breaks (.comma :: breaks) (Value.itemTokens breaks rest) ++ (gap ++ .rightBracket :: tokens)))) := by
      simpa [Value.itemTokens, parts] using spells
    have ends := headD_parts breaks (Value.itemTokens breaks rest) .rightBracket tokens closing
    refine Stream.parses_items_more separators led (starts_tokens value _) ?_ ends ?_
    · intro front ahead
      exact parses_value newlines value first (not_starts rfl ends) ahead
    · intro next behind
      exact parses_items newlines rest others (separators_comma newlines) closing behind

private theorem parses_fields (newlines : ∀ token ∈ breaks, token = .newline) (fields : List (String × Value))
    (distinct : Value.fieldsKeysDistinct (Value.fieldsToValue fields) = true)
    {lead gap tokens : List Token} (separators : ∀ token ∈ lead, token.isSeparator = true)
    (closing : ∀ token ∈ gap, token = .newline) {stream : Stream}
    (spells : stream.Spells
      (parts breaks lead (Value.fieldTokens breaks fields) ++ (gap ++ .rightBrace :: tokens))) :
    Parses (stream.fields includer .brace) (Object.entries (Value.fieldsToValue fields)) tokens := by
  cases fields with
  | nil => exact Stream.parses_fields_end (separators_newlines closing) spells
  | cons field rest =>
    obtain ⟨key, value⟩ := field
    obtain ⟨first, others⟩ := Bool.and_eq_true_iff.mp distinct
    have led : stream.Spells (lead ++ .quoted key :: .colon :: (value.tokens breaks ++
        (parts breaks (.comma :: breaks) (Value.fieldTokens breaks rest) ++ (gap ++ .rightBrace :: tokens)))) := by
      simpa [Value.fieldTokens, parts] using spells
    have ends := headD_parts breaks (Value.fieldTokens breaks rest) .rightBrace tokens closing
    refine Stream.parses_fields_more separators led ?_ ends ?_
    · intro front ahead
      have newlines' : ∀ token ∈ ([] : List Token), token = .newline := by simp
      refine Stream.parses_entry newlines' ahead (starts_tokens value _) ?_
      intro place within
      exact parses_value newlines value first (not_starts rfl ends) within
    · intro next behind
      exact parses_fields newlines rest others (separators_comma newlines) closing behind

end

/-- An object written in any layout is read as a document of its own. -/
private theorem parse_write {layout : Layout} (breaking : layout.Breaks breaks) (includer : Includer)
    (fields : List (String × Value)) (distinct : (Value.object fields).toValue.keysDistinct = true) :
    parse includer (String.ofList ((Value.object fields).write layout 0)) =
      pure ⟨Value.fieldsToValue fields, []⟩ := by
  have lexes := written_value breaking 0 (Value.object fields) [] [] (by simp [Lexes.Bounded]) .nil
  rw [List.append_nil] at lexes
  obtain ⟨stream, read, spells⟩ := lexes .origin
  obtain ⟨different, inner⟩ := Bool.and_eq_true_iff.mp distinct
  have newlines : ∀ token ∈ ([] ++ [] : List Token), token = .newline := by simp
  have parsed : stream.document includer = pure ⟨Entry.build _, []⟩ :=
    Stream.document_of_fields newlines (spells_object spells) fun next further =>
      parses_fields breaking.newlines fields inner (separators_newlines breaking.newlines)
        (newlines_closing breaking.newlines _) further
  rw [Object.build_entries (of_decide_eq_true different)] at parsed
  have opened : Stream.ofText (String.ofList ((Value.object fields).write layout 0)) = .ok stream := by
    rw [Stream.ofText, Cursor.ofText, String.toList_ofList]
    exact read
  rw [parse, opened]
  simp only [Run.ofExcept, pure_bind, parsed]

end Json

private theorem Config.ofText_of_parse {text : String} {fields : Object} (world : Include.World)
    (resolved : (Value.object fields).containsPending = false)
    (parsed : ∀ includer, parse includer text = pure ⟨fields, []⟩) :
    Config.ofText world text = pure ⟨.object fields, none⟩ := by
  have plain : (Root.mk (.object fields) []).resolve world.environment = pure (.object fields) :=
    Root.resolve_of_resolved world.environment (by simp [resolved])
  rw [Config.ofText, parsed]
  simp only [pure_bind, Document.root, plain]

/-- A resolved object can be written, and in both layouts what is written reads back as that
object: its keys in order, no references, and no directive to hand over. -/
theorem Value.written_json_reads_back (fields : Object)
    (resolved : (object fields).containsPending = false)
    (distinct : (object fields).keysDistinct = true) :
    ∃ compact pretty, (object fields).toJsonText = .ok compact ∧
      (object fields).toJsonTextPretty = .ok pretty ∧
      ∀ text ∈ [compact, pretty],
        (∀ includer, parse includer text = pure ⟨fields, []⟩) ∧
        ∀ world, Config.ofText world text = pure ⟨.object fields, none⟩ := by
  obtain ⟨json, done, back⟩ := toJson_of_resolved (object fields) resolved
  cases json with
  | null => cases back
  | text content => cases back
  | array items => cases back
  | object written =>
    have same : Json.Value.fieldsToValue written = fields := Value.object.inj back
    rw [← back] at distinct
    have reads : ∀ {layout : Json.Layout} {breaks : List Token}, layout.Breaks breaks →
        ∀ includer, parse includer (String.ofList ((Json.Value.object written).write layout 0)) =
          pure ⟨fields, []⟩ := by
      intro layout breaks breaking includer
      rw [Json.parse_write breaking includer written distinct, same]
    refine ⟨(Json.Value.object written).compact, (Json.Value.object written).pretty, ?_, ?_, ?_⟩
    · rw [toJsonText, done]
      rfl
    · rw [toJsonTextPretty, done]
      rfl
    · intro text member
      have parsed : ∀ includer, parse includer text = pure ⟨fields, []⟩ := by
        rcases List.mem_pair.mp member with rfl | rfl
        · exact reads Json.Layout.compact_breaks
        · exact reads Json.Layout.pretty_breaks
      exact ⟨parsed, fun world => Config.ofText_of_parse world resolved parsed⟩

/-- Keys and texts that mean something else without their quotes, beside empty containers. -/
def Object.thorny : Object :=
  [("", .text ""), ("a.b", .text "null"), ("include", .object []), ("null", .null),
    ("\"\\/", .array [.text "\n\x01\t", .array [], .text "$\x7bx\x7d", .null]),
    ("α", .object [("", .object [("a.b", .text "#\x7b")])])]

theorem Object.thorny_reads_back :
    (Value.object thorny).containsPending = false ∧ (Value.object thorny).keysDistinct = true ∧
      ∃ compact pretty, (Value.object thorny).toJsonText = .ok compact ∧
        (Value.object thorny).toJsonTextPretty = .ok pretty ∧
        ∀ text ∈ [compact, pretty],
          (∀ includer, parse includer text = pure ⟨thorny, []⟩) ∧
          ∀ world, Config.ofText world text = pure ⟨.object thorny, none⟩ :=
  ⟨rfl, by decide, Value.written_json_reads_back thorny rfl (by decide)⟩

end Hocon
