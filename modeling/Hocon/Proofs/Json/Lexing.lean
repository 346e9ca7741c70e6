import Hocon.Json.Value
import Hocon.Proofs.Scanning
import Mathlib.Data.Bool.AllAny

namespace Hocon

namespace Json

open Syntax (FourDigits shorthands)

variable {c : Char} {text content : List Char}

private theorem fourDigits_spell (small : c.toNat < 0x10000) : FourDigits (fourDigits c.toNat) c.toNat := by
  have digit (power : Nat) : Syntax.Hex (c.toNat / power % 16).digitChar (c.toNat / power % 16) :=
    ⟨Nat.mod_lt _ (by decide), .inl rfl⟩
  refine ⟨_, .cons (digit _) (.cons (digit _) (.cons (digit _) (.cons (digit _) .nil))), rfl, ?_⟩
  simp only [List.foldl_cons, List.foldl_nil]
  omega

private theorem escapeChar_decodes (c : Char) (further : Scan.Decodes text content) :
    Scan.Decodes (escapeChar c ++ text) (c :: content) := by
  have short (letter : Char) (known : (letter, c) ∈ shorthands) :
      Scan.Decodes (['\\', letter] ++ text) (c :: content) := .short known further
  unfold escapeChar
  split
  case isTrue same => exact short '"' (by rw [same]; decide)
  case isFalse apart =>
  split
  case isTrue same => exact short '\\' (by rw [same]; decide)
  case isFalse plain =>
  split
  case isTrue same => exact short 'b' (by rw [same]; decide)
  split
  case isTrue same => exact short 't' (by rw [same]; decide)
  split
  case isTrue same => exact short 'n' (by rw [same]; decide)
  case isFalse line =>
  split
  case isTrue same => exact short 'f' (by rw [same]; decide)
  split
  case isTrue same => exact short 'r' (by rw [same]; decide)
  split
  case isTrue control =>
    have low : c.toNat < 32 := UInt32.lt_iff_toNat_lt.mp (Char.lt_def.mp control)
    exact .code (fourDigits_spell (Nat.lt_trans low (by decide))) further
  case isFalse => exact .plain apart line plain further

private theorem escaped_decodes (text : List Char) : Scan.Decodes (text.flatMap escapeChar) text := by
  induction text with
  | nil => exact .nil
  | cons c text ih => exact escapeChar_decodes c ih

/-- A text that reads as these tokens where something follows that may end a word. -/
def Written (text : List Char) (tokens : List Token) : Prop :=
  ∀ rest further, Lexes.Bounded rest → Lexes rest further → Lexes (text ++ rest) (tokens ++ further)

theorem decoded_written {body decoded : List Char} (decodes : Scan.Decodes body decoded) :
    Written ('"' :: body ++ ['"']) [.quoted (String.ofList decoded)] := by
  intro rest further bounded lexes
  have single := Scan.single_of_head decodes.head fun _ head => (bounded '"' head).2 rfl
  simpa using Lexes.quoted single (fun opened place => decodes.quoted opened place rest) lexes

private theorem quoted_written (text : String) : Written (quoted text) [.quoted text] := by
  simpa [quoted] using decoded_written (escaped_decodes text.toList)

theorem word_written {text : List Char} (some : text ≠ []) (plain : ∀ c ∈ text, Lexes.Plain c) :
    Written text [.unquoted (String.ofList text)] := by
  intro rest further bounded lexes
  cases text with
  | nil => exact absurd rfl some
  | cons c letters => exact .unquoted plain bounded lexes

theorem null_written : Written ['n', 'u', 'l', 'l'] [.unquoted "null"] :=
  word_written (by simp) (List.all_iff_forall_prop.mp (by decide))

/-- A layout of which nothing is seen but these newlines, before elements and closing brackets. -/
structure Layout.Breaks (layout : Layout) (breaks : List Token) : Prop where
  newlines : ∀ token ∈ breaks, token = .newline
  before : ∀ depth {text tokens}, Lexes text tokens →
    Lexes (layout.before depth ++ text) (breaks ++ tokens)
  bounded : ∀ depth {text}, Lexes.Bounded text → Lexes.Bounded (layout.before depth ++ text)
  afterColon : ∀ {text tokens}, Lexes text tokens → Lexes (layout.afterColon ++ text) tokens

theorem Layout.compact_breaks : Layout.compact.Breaks [] where
  newlines := by simp
  before _ _ _ lexes := lexes
  bounded _ _ bounded := bounded
  afterColon lexes := lexes

theorem Layout.pretty_breaks : Layout.pretty.Breaks [.newline] where
  newlines := by simp
  before depth text tokens lexes := by
    have indented : Lexes (List.replicate (2 * depth) ' ' ++ text) tokens := by
      refine .blanks ?_ lexes
      intro c member
      rw [List.eq_of_mem_replicate member]
      rfl
    exact .symbol rfl indented
  bounded _ _ _ := Lexes.bounded_of_symbol (show Cursor.symbol? '\n' = some .newline from rfl) _
  afterColon lexes := .blank rfl lexes

/-- The tokens of elements: breaks before each, and commas between them. Before the first
stands `lead`. -/
def parts (breaks lead : List Token) : List (List Token) → List Token
  | [] => []
  | first :: rest => lead ++ first ++ parts breaks (.comma :: breaks) rest

/-- The tokens between two brackets; there are none without elements. -/
def inside (breaks : List Token) (elements : List (List Token)) : List Token :=
  parts breaks breaks elements ++ if elements.isEmpty then [] else breaks

theorem intercalate_cons_eq_flatMap {α β : Type} (separator : List α) (f : β → List α) (first : β)
    (rest : List β) :
    separator.intercalate ((first :: rest).map f) = f first ++ rest.flatMap (separator ++ f ·) := by
  induction rest generalizing first with
  | nil => simp
  | cons second rest ih =>
    rw [List.map_cons, List.map_cons, List.intercalate_cons_cons, ← List.map_cons, ih]
    simp

variable {layout : Layout} {breaks : List Token} {elements : List (List Char)}
  {spelled : List (List Token)} {rest : List Char} {further : List Token}

private theorem bounded_followed (depth : Nat) (bounded : Lexes.Bounded rest) :
    Lexes.Bounded (elements.flatMap (fun element => ',' :: (layout.before depth ++ element)) ++ rest) := by
  cases elements with
  | nil => exact bounded
  | cons element others => exact Lexes.bounded_of_symbol (show Cursor.symbol? ',' = some .comma from rfl) _

private theorem lexes_followed (breaking : layout.Breaks breaks) (depth : Nat)
    (written : List.Forall₂ Written elements spelled) (bounded : Lexes.Bounded rest)
    (lexes : Lexes rest further) :
    Lexes (elements.flatMap (fun element => ',' :: (layout.before depth ++ element)) ++ rest)
      (parts breaks (.comma :: breaks) spelled ++ further) := by
  induction written with
  | nil => exact lexes
  | @cons element tokens others spelled first more ih =>
    have behind := first _ _ (bounded_followed depth bounded) ih
    have whole := Lexes.symbol (c := ',') rfl (breaking.before depth behind)
    simpa [parts] using whole

private theorem enclose_written (breaking : layout.Breaks breaks) (depth : Nat) {opening closing : Char}
    {left right : Token} (opens : Cursor.symbol? opening = some left)
    (closes : Cursor.symbol? closing = some right)
    (written : List.Forall₂ Written elements spelled) :
    Written (layout.enclose depth opening closing elements) (left :: inside breaks spelled ++ [right]) := by
  intro rest further bounded lexes
  have closed := Lexes.symbol closes lexes
  cases written with
  | nil => exact .symbol opens closed
  | @cons element tokens others spelled first more =>
    have ends := breaking.bounded depth (Lexes.bounded_of_symbol closes rest)
    have tail := lexes_followed breaking (depth + 1) more ends (breaking.before depth closed)
    have behind := first _ _ (bounded_followed (depth + 1) ends) tail
    have whole := Lexes.symbol opens (breaking.before (depth + 1) behind)
    simp only [Layout.enclose, if_neg (List.cons_ne_nil element others), intercalate_cons_eq_flatMap]
    simpa [inside, parts] using whole

namespace Value

mutual

/-- The tokens of a written value, when these come before elements and closing brackets. -/
def tokens (breaks : List Token) : Value → List Token
  | .null => [.unquoted "null"]
  | .text content => [.quoted content]
  | .array items => .leftBracket :: inside breaks (itemTokens breaks items) ++ [.rightBracket]
  | .object fields => .leftBrace :: inside breaks (fieldTokens breaks fields) ++ [.rightBrace]

def itemTokens (breaks : List Token) : List Value → List (List Token)
  | [] => []
  | value :: rest => value.tokens breaks :: itemTokens breaks rest

def fieldTokens (breaks : List Token) : List (String × Value) → List (List Token)
  | [] => []
  | (key, value) :: rest => (.quoted key :: .colon :: value.tokens breaks) :: fieldTokens breaks rest

end

end Value

private theorem field_written (breaking : layout.Breaks breaks) (key : String) {text : List Char}
    {tokens : List Token} (written : Written text tokens) :
    Written (layout.field key text) (.quoted key :: .colon :: tokens) := by
  intro rest further bounded lexes
  have behind := Lexes.symbol (c := ':') rfl (breaking.afterColon (written rest further bounded lexes))
  simpa [Layout.field] using quoted_written key _ _ (Lexes.bounded_of_symbol rfl _) behind

mutual

theorem written_value (breaking : layout.Breaks breaks) (depth : Nat) :
    (value : Value) → Written (value.write layout depth) (value.tokens breaks)
  | .null => null_written
  | .text content => quoted_written content
  | .array items =>
    enclose_written breaking depth rfl rfl (written_items breaking (depth + 1) items)
  | .object fields =>
    enclose_written breaking depth rfl rfl (written_fields breaking (depth + 1) fields)

private theorem written_items (breaking : layout.Breaks breaks) (depth : Nat) :
    (items : List Value) →
      List.Forall₂ Written (Value.writeItems layout depth items) (Value.itemTokens breaks items)
  | [] => .nil
  | value :: rest => .cons (written_value breaking depth value) (written_items breaking depth rest)

private theorem written_fields (breaking : layout.Breaks breaks) (depth : Nat) :
    (fields : List (String × Value)) →
      List.Forall₂ Written (Value.writeFields layout depth fields) (Value.fieldTokens breaks fields)
  | [] => .nil
  | (key, value) :: rest =>
    .cons (field_written breaking key (written_value breaking depth value))
      (written_fields breaking depth rest)

end

end Json
end Hocon
