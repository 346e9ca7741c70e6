import Hocon.Proofs.Json.Reading
import Hocon.Proofs.Json.Syntax

namespace Hocon

namespace Json.Syntax

variable {gap text rest : List Char} {further : List Token} {c : Char}

/-- What is seen of white space: its line breaks. -/
def lineBreaks (gap : List Char) : List Token := (gap.filter (· == '\n')).map fun _ => .newline

private theorem lineBreaks_newline (gap : List Char) : ∀ token ∈ lineBreaks gap, token = .newline := by
  simp [lineBreaks]

private theorem lineBreaks_eq_nil (flat : '\n' ∉ gap) : lineBreaks gap = [] := by
  have none : gap.filter (· == '\n') = [] := by
    refine List.filter_eq_nil_iff.mpr fun c member same => flat ?_
    rwa [← eq_of_beq same]
  rw [lineBreaks, none]
  rfl

private theorem Space.bounded (space : Space gap) (bounded : Lexes.Bounded rest) :
    Lexes.Bounded (gap ++ rest) := by
  cases gap with
  | nil => exact bounded
  | cons c gap =>
    have white := space c List.mem_cons_self
    rintro d ⟨⟩
    simp only [List.mem_cons, List.not_mem_nil, or_false] at white
    rcases white with rfl | rfl | rfl | rfl <;> exact ⟨by decide, by decide⟩

private theorem Space.lexes (space : Space gap) (lexes : Lexes rest further) :
    Lexes (gap ++ rest) (lineBreaks gap ++ further) := by
  induction gap with
  | nil => exact lexes
  | cons c gap ih =>
    have behind := ih fun d member => space d (List.mem_cons_of_mem c member)
    have white := space c List.mem_cons_self
    simp only [List.mem_cons, List.not_mem_nil, or_false] at white
    rcases white with rfl | rfl | rfl | rfl
    · exact .blank rfl behind
    · exact .blank rfl behind
    · exact .symbol rfl behind
    · exact .blank rfl behind

private theorem plain_of_mem_digits (digit : c ∈ digits) : Lexes.Plain c := by
  have plain : ∀ c ∈ digits, Lexes.Plain c := List.all_iff_forall_prop.mp (by decide)
  exact plain c digit

private theorem plain_minus : ∀ c ∈ ['-'], Lexes.Plain c := List.forall_mem_singleton.mpr (by decide)

private theorem Digits.plain (figures : Digits text) : ∀ c ∈ text, Lexes.Plain c :=
  fun c member => plain_of_mem_digits (figures.2 c member)

private theorem Fraction.plain (fraction : Fraction text) : ∀ c ∈ text, Lexes.Plain c := by
  cases fraction with
  | none => simp
  | some figures => exact List.forall_mem_cons.mpr ⟨by decide, figures.plain⟩

private theorem Exponent.plain (exponent : Exponent False text) : ∀ c ∈ text, Lexes.Plain c := by
  cases exponent with
  | none => simp
  | some marked signed figures =>
    refine List.forall_mem_cons.mpr ⟨?_, List.forall_mem_append.mpr ⟨?_, figures.plain⟩⟩
    · rcases marked with rfl | rfl <;> decide
    · rcases signed with rfl | rfl | ⟨_, ⟨⟩⟩
      · simp
      · exact plain_minus

private theorem Number.plain (number : Number False text) : ∀ c ∈ text, Lexes.Plain c := by
  obtain ⟨signed, begins, parted, scaled⟩ := number
  simp only [List.forall_mem_append]
  refine ⟨⟨⟨?_, begins.1.plain⟩, parted.plain⟩, scaled.plain⟩
  rcases signed with rfl | rfl
  · simp
  · exact plain_minus

private theorem Number.head {all : Prop} (number : Number all text) :
    ∃ c more, text = c :: more ∧ c ∈ '-' :: digits := by
  obtain ⟨signed, begins, -, -⟩ := number
  obtain ⟨⟨some, figures⟩, -⟩ := begins
  rename_i whole _ _
  rcases signed with rfl | rfl
  · cases whole with
    | nil => exact absurd rfl some
    | cons c more => exact ⟨c, _, rfl, List.mem_cons_of_mem _ (figures c List.mem_cons_self)⟩
  · exact ⟨'-', _, rfl, List.mem_cons_self⟩

private theorem Content.of_plain (plain : ∀ c ∈ text, ' ' ≤ c ∧ c ≠ '"' ∧ c ≠ '\\') : Content text text := by
  induction text with
  | nil => exact .nil
  | cons c text ih =>
    obtain ⟨⟨visible, apart, bare⟩, others⟩ := List.forall_mem_cons.mp plain
    exact .plain visible apart bare (ih others)

private theorem Content.written {decoded : List Char} (content : Content text decoded) :
    Written ('"' :: text ++ ['"']) [.quoted (String.ofList decoded)] :=
  decoded_written content.decodes

/-- A text that is parsed to a value wherever it is read, if no other piece follows. -/
def Reads (text : List Char) (value : Hocon.Value) : Prop :=
  ∃ tokens, Written text tokens ∧ (∀ rest, ((tokens ++ rest).headD .endOfText).startsValue = true) ∧
    ∀ {includer : Includer} {stream : Stream} {rest : List Token},
      (rest.headD .endOfText).startsValue = false → stream.Spells (tokens ++ rest) →
        Parses (stream.value includer) value rest

/-- A text that is parsed to elements in front of a bracket, behind any separators. -/
def ReadsItems (text : List Char) (items : List Hocon.Value) : Prop :=
  ∃ tokens, Written text tokens ∧
    ∀ {includer : Includer} {opened : Position} {stream : Stream} {lead rest : List Token},
      (∀ token ∈ lead, token.isSeparator = true) →
        stream.Spells (lead ++ (tokens ++ .rightBracket :: rest)) →
          Parses (stream.items includer opened) items rest

/-- A text that is parsed to a field, if no other piece follows. -/
def ReadsField (text : List Char) (field : String × Hocon.Value) : Prop :=
  ∃ tokens, Written text (.quoted field.1 :: tokens) ∧
    ∀ {includer : Includer} {stream : Stream} {rest : List Token},
      (rest.headD .endOfText).startsValue = false → stream.Spells (.quoted field.1 :: (tokens ++ rest)) →
        Parses (stream.entry includer) (.assign ⟨field.1, []⟩ field.2) rest

/-- A text that is parsed to fields in front of a brace, behind any separators. -/
def ReadsFields (text : List Char) (fields : Object) : Prop :=
  ∃ tokens, Written text tokens ∧
    ∀ {includer : Includer} {stream : Stream} {lead rest : List Token},
      (∀ token ∈ lead, token.isSeparator = true) →
        stream.Spells (lead ++ (tokens ++ .rightBrace :: rest)) →
          Parses (stream.fields includer .brace) fields.entries rest

private theorem reads_word (some : text ≠ []) (plain : ∀ c ∈ text, Lexes.Plain c)
    (apart : String.ofList text ≠ "null") : Reads text (.text (String.ofList text)) := by
  refine ⟨_, word_written some plain, fun _ => rfl, ?_⟩
  intro includer stream rest ends spells
  refine Stream.parses_single (Stream.parses_text (.inl rfl) spells) ends ?_
  rw [spells.token_eq]
  exact joinPieces_alone fun _ same => apart (Hocon.Value.text.inj same)

private theorem reads_null : Reads ['n', 'u', 'l', 'l'] .null := by
  refine ⟨_, null_written, fun _ => rfl, ?_⟩
  intro includer stream rest ends spells
  refine Stream.parses_single (Stream.parses_text (.inl rfl) spells) ends ?_
  rw [spells.token_eq]
  rfl

private theorem reads_number (number : Number False text) : Reads text (.text (String.ofList text)) := by
  obtain ⟨c, more, rfl, first⟩ := number.head
  refine reads_word (by simp) number.plain ?_
  intro same
  rw [show "null" = String.ofList ['n', 'u', 'l', 'l'] from rfl, String.ofList_inj] at same
  cases same
  exact absurd first (by decide)

private theorem reads_string {decoded : List Char} (content : Content text decoded) :
    Reads ('"' :: text ++ ['"']) (.text (String.ofList decoded)) := by
  refine ⟨_, content.written, fun _ => rfl, ?_⟩
  intro includer stream rest ends spells
  refine Stream.parses_single (Stream.parses_text (.inr rfl) spells) ends ?_
  rw [spells.token_eq]
  exact joinPieces_alone nofun

/-- White space is no more than its line breaks, and may stand before and behind anything. -/
private theorem Space.written {before behind : List Char} {tokens : List Token} (lead : Space before)
    (written : Written text tokens) (trail : Space behind) :
    Written (before ++ text ++ behind) (lineBreaks before ++ tokens ++ lineBreaks behind) := by
  intro rest further bounded lexes
  have whole := lead.lexes (written _ _ (trail.bounded bounded) (trail.lexes lexes))
  simpa using whole

private theorem Space.written_alone (space : Space gap) : Written gap (lineBreaks gap) :=
  fun _ _ _ lexes => space.lexes lexes

private theorem enclosed_written {opening closing : Char} {left right : Token} {tokens : List Token}
    (opens : Cursor.symbol? opening = some left) (closes : Cursor.symbol? closing = some right)
    (written : Written text tokens) :
    Written (opening :: text ++ [closing]) (left :: tokens ++ [right]) := by
  intro rest further bounded lexes
  have whole := Lexes.symbol opens
    (written _ _ (Lexes.bounded_of_symbol closes rest) (Lexes.symbol closes lexes))
  simpa using whole

private theorem parted_written {first others : List Char} {tokens more : List Token}
    (before : Written first tokens)
    (behind : Written others more) : Written (first ++ ',' :: others) (tokens ++ .comma :: more) := by
  intro rest further bounded lexes
  have whole := before _ _ (Lexes.bounded_of_symbol (show Cursor.symbol? ',' = some .comma from rfl) _)
    (Lexes.symbol rfl (behind _ _ bounded lexes))
  simpa using whole

private theorem separators_nil : ∀ token ∈ ([] : List Token), token.isSeparator = true := by simp

private theorem reads_array {items : List Hocon.Value} (inside : ReadsItems text items) :
    Reads ('[' :: text ++ [']']) (.array items) := by
  obtain ⟨tokens, written, parsed⟩ := inside
  refine ⟨_, enclosed_written rfl rfl written, fun _ => rfl, ?_⟩
  intro includer stream rest ends spells
  have bracketed : stream.Spells (.leftBracket :: (tokens ++ .rightBracket :: rest)) := by simpa using spells
  refine Stream.parses_single (Stream.parses_array bracketed ?_) ends rfl
  intro opened next further
  exact parsed separators_nil further

private theorem reads_object {fields : Object} (distinct : (Object.keys fields).Nodup)
    (inside : ReadsFields text fields) : Reads ('\x7b' :: text ++ ['\x7d']) (.object fields) := by
  obtain ⟨tokens, written, parsed⟩ := inside
  refine ⟨_, enclosed_written rfl rfl written, fun _ => rfl, ?_⟩
  intro includer stream rest ends spells
  have braced : stream.Spells (.leftBrace :: (tokens ++ .rightBrace :: rest)) := by simpa using spells
  have object : Parses (stream.piece includer) (.object (Entry.build fields.entries)) rest :=
    Stream.parses_object braced fun next further => parsed separators_nil further
  rw [Object.build_entries distinct] at object
  exact Stream.parses_single object ends rfl

private theorem separators_led {lead : List Token} (separators : ∀ token ∈ lead, token.isSeparator = true)
    (gap : List Char) : ∀ token ∈ lead ++ lineBreaks gap, token.isSeparator = true :=
  List.forall_mem_append.mpr ⟨separators, separators_newlines (lineBreaks_newline gap)⟩

private theorem readsItems_nil (space : Space gap) : ReadsItems gap [] := by
  refine ⟨_, space.written_alone, ?_⟩
  intro includer opened stream lead rest separators spells
  have ended : stream.Spells (lead ++ lineBreaks gap ++ .rightBracket :: rest) := by simpa using spells
  exact Stream.parses_items_end (separators_led separators gap) ended

private theorem readsFields_nil (space : Space gap) : ReadsFields gap [] := by
  refine ⟨_, space.written_alone, ?_⟩
  intro includer stream lead rest separators spells
  have ended : stream.Spells (lead ++ lineBreaks gap ++ .rightBrace :: rest) := by simpa using spells
  exact Stream.parses_fields_end (separators_led separators gap) ended

/-- What follows a value: line breaks in front of a comma or of what closes the container. -/
private theorem headD_lineBreaks (gap : List Char) {token : Token} (closing : Token) (tokens : List Token)
    (known : token ∈ [.comma, closing]) :
    (lineBreaks gap ++ token :: tokens).headD .endOfText ∈ [.comma, .newline, closing] := by
  cases breaks : lineBreaks gap with
  | nil =>
    simp only [List.mem_cons, List.not_mem_nil, or_false] at known
    rcases known with rfl | rfl <;> simp
  | cons first others =>
    have newline := lineBreaks_newline gap first (by simp [breaks])
    simp [newline]

private theorem separators_trailed (gap : List Char) :
    ∀ token ∈ lineBreaks gap ++ [.comma], token.isSeparator = true :=
  List.forall_mem_append.mpr ⟨separators_newlines (lineBreaks_newline gap), by simp [Token.isSeparator]⟩

variable {before behind others : List Char}

private theorem readsItems_last {item : Hocon.Value} (lead : Space before) (first : Reads text item)
    (trail : Space behind) : ReadsItems (before ++ text ++ behind) [item] := by
  obtain ⟨tokens, written, starts, parsed⟩ := first
  refine ⟨_, lead.written written trail, ?_⟩
  intro includer opened stream gap rest separators spells
  have ends := headD_lineBreaks behind .rightBracket rest (List.mem_cons_of_mem _ List.mem_cons_self)
  have led : stream.Spells (gap ++ lineBreaks before ++
      (tokens ++ (lineBreaks behind ++ .rightBracket :: rest))) := by
    simpa using spells
  refine Stream.parses_items_more (separators_led separators before) led (starts _) ?_ ends ?_
  · intro front ahead
    exact parsed (not_starts rfl ends) ahead
  · intro next further
    exact Stream.parses_items_end (separators_newlines (lineBreaks_newline behind)) further

private theorem readsItems_more {item : Hocon.Value} {items : List Hocon.Value} (lead : Space before)
    (first : Reads text item) (trail : Space behind) (further : ReadsItems others items) :
    ReadsItems (before ++ text ++ behind ++ ',' :: others) (item :: items) := by
  obtain ⟨tokens, written, starts, parsed⟩ := first
  obtain ⟨more, follows, finished⟩ := further
  refine ⟨_, parted_written (lead.written written trail) follows, ?_⟩
  intro includer opened stream gap rest separators spells
  have ends := headD_lineBreaks behind .rightBracket (more ++ .rightBracket :: rest) List.mem_cons_self
  have led : stream.Spells (gap ++ lineBreaks before ++
      (tokens ++ (lineBreaks behind ++ .comma :: (more ++ .rightBracket :: rest)))) := by
    simpa using spells
  refine Stream.parses_items_more (separators_led separators before) led (starts _) ?_ ends ?_
  · intro front ahead
    exact parsed (not_starts rfl ends) ahead
  · intro next behind'
    exact finished (separators_trailed behind) (by simpa using behind')

private theorem readsFields_last {field : String × Hocon.Value} (lead : Space before)
    (first : ReadsField text field)
    (trail : Space behind) : ReadsFields (before ++ text ++ behind) [field] := by
  obtain ⟨tokens, written, parsed⟩ := first
  refine ⟨_, lead.written written trail, ?_⟩
  intro includer stream gap rest separators spells
  have ends := headD_lineBreaks behind .rightBrace rest (List.mem_cons_of_mem _ List.mem_cons_self)
  have led : stream.Spells (gap ++ lineBreaks before ++
      .quoted field.1 :: (tokens ++ (lineBreaks behind ++ .rightBrace :: rest))) := by
    simpa using spells
  refine Stream.parses_fields_more (separators_led separators before) led ?_ ends ?_
  · intro front ahead
    exact parsed (not_starts rfl ends) ahead
  · intro next further
    exact Stream.parses_fields_end (separators_newlines (lineBreaks_newline behind)) further

private theorem readsFields_more {field : String × Hocon.Value} {fields : Object} (lead : Space before)
    (first : ReadsField text field) (trail : Space behind) (further : ReadsFields others fields) :
    ReadsFields (before ++ text ++ behind ++ ',' :: others) (field :: fields) := by
  obtain ⟨tokens, written, parsed⟩ := first
  obtain ⟨more, follows, finished⟩ := further
  refine ⟨_, parted_written (lead.written written trail) follows, ?_⟩
  intro includer stream gap rest separators spells
  have ends := headD_lineBreaks behind .rightBrace (more ++ .rightBrace :: rest) List.mem_cons_self
  have led : stream.Spells (gap ++ lineBreaks before ++
      .quoted field.1 :: (tokens ++ (lineBreaks behind ++ .comma :: (more ++ .rightBrace :: rest)))) := by
    simpa using spells
  refine Stream.parses_fields_more (separators_led separators before) led ?_ ends ?_
  · intro front ahead
    exact parsed (not_starts rfl ends) ahead
  · intro next behind'
    exact finished (separators_trailed behind) (by simpa using behind')

/-- No line breaks before the colon, so the colon is the token behind the key. -/
private theorem readsField {name key middle after : List Char} {value : Hocon.Value} (named : Content name key)
    (part : Space middle) (flat : '\n' ∉ middle) (lead : Space after) (element : Reads text value) :
    ReadsField ('"' :: name ++ '"' :: middle ++ ':' :: after ++ text) (String.ofList key, value) := by
  obtain ⟨tokens, written, starts, parsed⟩ := element
  refine ⟨.colon :: (lineBreaks after ++ tokens), ?_, ?_⟩
  · intro rest further bounded lexes
    have colon : Cursor.symbol? ':' = some .colon := rfl
    have assigned := part.lexes (Lexes.symbol colon (lead.lexes (written _ _ bounded lexes)))
    rw [lineBreaks_eq_nil flat] at assigned
    have whole := named.written _ _ (part.bounded (Lexes.bounded_of_symbol rfl _)) assigned
    simpa using whole
  · intro includer stream rest ends spells
    have assigned : stream.Spells
        (.quoted (String.ofList key) :: .colon :: (lineBreaks after ++ (tokens ++ rest))) := by
      simpa using spells
    refine Stream.parses_entry (lineBreaks_newline after) assigned (starts _) ?_
    intro front ahead
    exact parsed ends ahead

mutual

/-- An element is read as what it means. -/
private theorem Element.reads {text : List Char} {value : Hocon.Value} (element : Element False text value)
    (distinct : value.keysDistinct = true) : Reads text value := by
  cases element with
  | null => exact reads_null
  | yes => exact reads_word (by simp) (List.all_iff_forall_prop.mp (by decide)) (by decide)
  | no => exact reads_word (by simp) (List.all_iff_forall_prop.mp (by decide)) (by decide)
  | number number => exact reads_number number
  | string content => exact reads_string content
  | emptyArray space => exact reads_array (readsItems_nil space)
  | array inside => exact reads_array (inside.reads distinct)
  | emptyObject space => exact reads_object (by simp [Object.keys]) (readsFields_nil space)
  | object inside =>
    obtain ⟨different, inner⟩ := Bool.and_eq_true_iff.mp distinct
    exact reads_object (of_decide_eq_true different) (inside.reads inner)

private theorem Elements.reads {text : List Char} {items : List Hocon.Value}
    (elements : Elements False text items)
    (distinct : Value.itemsKeysDistinct items = true) : ReadsItems text items := by
  cases elements with
  | last lead element trail =>
    exact readsItems_last lead (element.reads (Bool.and_eq_true_iff.mp distinct).1) trail
  | more lead element trail further =>
    obtain ⟨first, others⟩ := Bool.and_eq_true_iff.mp distinct
    exact readsItems_more lead (element.reads first) trail (further.reads others)

private theorem Member.reads {text : List Char} {field : String × Hocon.Value}
    (member : Member False text field)
    (distinct : field.2.keysDistinct = true) : ReadsField text field := by
  cases member with
  | mk named part flat lead element => exact readsField named part flat lead (element.reads distinct)

private theorem Members.reads {text : List Char} {fields : Object} (members : Members False text fields)
    (distinct : Value.fieldsKeysDistinct fields = true) : ReadsFields text fields := by
  cases members with
  | last lead member trail =>
    exact readsFields_last lead (member.reads (Bool.and_eq_true_iff.mp distinct).1) trail
  | more lead member trail further =>
    obtain ⟨first, others⟩ := Bool.and_eq_true_iff.mp distinct
    exact readsFields_more lead (member.reads first) trail (further.reads others)

end

end Json.Syntax

open Json.Syntax

/-- A JSON text of an object in which no key is repeated is parsed to what it means: the same
objects and arrays in order, strings decoded, and numbers as they are written. No reference is
found and no directive is handed over. -/
theorem parse_reads_json {text : String} {fields : Object} (json : Text False text.toList (.object fields))
    (distinct : (Value.object fields).keysDistinct = true) (includer : Includer) :
    parse includer text = pure ⟨fields, []⟩ := by
  obtain ⟨different, inner⟩ := Bool.and_eq_true_iff.mp distinct
  generalize whole : text.toList = characters at json
  obtain ⟨lead, element, trail⟩ := json
  rename_i before inside behind
  obtain ⟨body, rfl, tokens, written, parsed⟩ : ∃ body, inside = '\x7b' :: body ++ ['\x7d'] ∧
      ReadsFields body fields := by
    cases element with
    | emptyObject space => exact ⟨_, rfl, readsFields_nil space⟩
    | object members => exact ⟨_, rfl, members.reads inner⟩
  have opens : Cursor.symbol? '\x7b' = some .leftBrace := rfl
  have closes : Cursor.symbol? '\x7d' = some .rightBrace := rfl
  have lexes := lead.written (enclosed_written opens closes written) trail [] [] (by simp [Lexes.Bounded]) .nil
  rw [List.append_nil, ← whole, List.append_nil] at lexes
  obtain ⟨stream, read, spells⟩ := lexes .origin
  have led : stream.Spells (lineBreaks before ++ .leftBrace :: (tokens ++ .rightBrace :: lineBreaks behind)) := by
    simpa using spells
  have newlines := List.forall_mem_append.mpr ⟨lineBreaks_newline before, lineBreaks_newline behind⟩
  have done : stream.document includer = pure ⟨Entry.build fields.entries, []⟩ :=
    Stream.document_of_fields newlines led fun next further => parsed separators_nil further
  rw [Object.build_entries (of_decide_eq_true different)] at done
  have opened : Stream.ofText text = .ok stream := read
  rw [parse, opened]
  simp only [Run.ofExcept, pure_bind, done]

/-- White space of all kinds, a sign and an exponent, escapes, and keys that mean something else
without their quotes. -/
def Json.listed : String :=
  "\x7b \"a\\u004a\\n\" : [-0.5e-3,\r\n null ,true],\n\t\"include\":\x7b \x7d,\"\":\"x\" \x7d\n"

def Json.listedFields : Object :=
  [("aJ\n", .array [.text "-0.5e-3", .null, .text "true"]), ("include", .object []), ("", .text "x")]

private theorem Json.listed_is_json : Text False listed.toList (.object listedFields) := by
  have fraction : Fraction ('.' :: ['5']) := .some (by decide)
  have exponent : Exponent False ('e' :: (['-'] ++ ['3'])) := .some (.inl rfl) (.inr (.inl rfl)) (by decide)
  have number : Number False (['-'] ++ ['0'] ++ ('.' :: ['5']) ++ ('e' :: (['-'] ++ ['3']))) :=
    .mk (.inr rfl) (by decide) fraction exponent
  have none : Space [] := by decide
  have one : Space [' '] := by decide
  have crossed : Space ['\r', '\n', ' '] := by decide
  have indented : Space ['\n', '\t'] := by decide
  have line : Space ['\n'] := by decide
  have items : Elements False _ [.text "-0.5e-3", .null, .text "true"] :=
    .more none (.number number) none (.more crossed .null one (.last none .yes none))
  have hex : List.Forall₂ Hex ['0', '0', '4', 'a'] [0, 0, 4, 10] := hex_of_map rfl
  have newline : ('n', '\n') ∈ shorthands := by decide
  have name : Content _ ['a', 'J', '\n'] :=
    .plain (by decide) (by decide) (by decide) (.code hex rfl rfl (.short newline .nil))
  have named : Content ['i', 'n', 'c', 'l', 'u', 'd', 'e'] _ := .of_plain (List.all_iff_forall_prop.mp (by decide))
  have text : Content ['x'] _ := .of_plain (List.all_iff_forall_prop.mp (by decide))
  have members : Members False _ listedFields :=
    .more one (.mk name one (by decide) one (.array items)) none
      (.more indented (.mk named none (by decide) none (.emptyObject one)) none
        (.last none (.mk .nil none (by decide) none (.string text)) one))
  exact .mk none (.object members) line

theorem Json.listed_read : Text False listed.toList (.object listedFields) ∧
    (Hocon.Value.object listedFields).keysDistinct = true ∧
      ∀ includer, parse includer listed = pure ⟨listedFields, []⟩ :=
  ⟨listed_is_json, by decide, parse_reads_json listed_is_json (by decide)⟩

/-- A plus sign in an exponent, and a line break in front of a colon, are JSON and yet refused. -/
theorem Json.plus_and_break_refused :
    (Text True "\x7b\"a\":1e+5\x7d".toList (.object [("a", .text "1e+5")]) ∧
      ((parse (fun _ => pure .empty) "\x7b\"a\":1e+5\x7d").outcome .start).1.isOk = false) ∧
    (Text True "\x7b\"a\"\n:1\x7d".toList (.object [("a", .text "1")]) ∧
      ((parse (fun _ => pure .empty) "\x7b\"a\"\n:1\x7d").outcome .start).1.isOk = false) := by
  have none : Space [] := by decide
  have line : Space ['\n'] := by decide
  have name : Content ['a'] _ := .of_plain (List.all_iff_forall_prop.mp (by decide))
  have exponent : Exponent True ('e' :: (['+'] ++ ['5'])) :=
    .some (.inl rfl) (.inr (.inr ⟨rfl, trivial⟩)) (by decide)
  have plus : Number True ([] ++ ['1'] ++ [] ++ ('e' :: (['+'] ++ ['5']))) :=
    .mk (.inl rfl) (by decide) .none exponent
  have one : Number True ([] ++ ['1'] ++ [] ++ []) := .mk (.inl rfl) (by decide) .none .none
  have signed : Members True _ [("a", .text "1e+5")] :=
    .last none (.mk name none (fun _ => trivial) none (.number plus)) none
  have broken : Members True _ [("a", .text "1")] :=
    .last none (.mk name line (fun _ => trivial) none (.number one)) none
  refine ⟨⟨?_, by decide +kernel⟩, ⟨?_, by decide +kernel⟩⟩
  · exact .mk none (.object signed) none
  · exact .mk none (.object broken) none

end Hocon
