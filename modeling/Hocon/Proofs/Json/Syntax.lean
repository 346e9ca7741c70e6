import Hocon.Value
import Mathlib.Data.List.Forall2

/-! The syntax of JSON texts, and what each of them means: strings are decoded, `null` is apart,
and any other scalar is the text that is written. A plus sign in an exponent, and a line break
between a key and its colon, belong to JSON but not to the configurations that are read here;
`all` tells whether they are admitted. -/
namespace Hocon.Json.Syntax

/-- Insignificant white space. -/
def Space (text : List Char) : Prop := ∀ c ∈ text, c ∈ [' ', '\t', '\n', '\r']

instance (text : List Char) : Decidable (Space text) := List.decidableBAll _ text

def digits : List Char := ['0', '1', '2', '3', '4', '5', '6', '7', '8', '9']

/-- One digit or more. -/
def Digits (text : List Char) : Prop := text ≠ [] ∧ ∀ c ∈ text, c ∈ digits

instance (text : List Char) : Decidable (Digits text) := @instDecidableAnd _ _ _ (List.decidableBAll _ text)

/-- A whole number. Only zero begins with zero. -/
def Whole (text : List Char) : Prop := Digits text ∧ (text.head? = some '0' → text = ['0'])

instance (text : List Char) : Decidable (Whole text) := inferInstanceAs (Decidable (_ ∧ _))

inductive Fraction : List Char → Prop where
  | none : Fraction []
  | some {figures : List Char} (some : Digits figures) : Fraction ('.' :: figures)

inductive Exponent (all : Prop) : List Char → Prop where
  | none : Exponent all []
  | some {mark : Char} {sign figures : List Char} (marked : mark = 'e' ∨ mark = 'E')
      (signed : sign = [] ∨ sign = ['-'] ∨ sign = ['+'] ∧ all) (some : Digits figures) :
      Exponent all (mark :: (sign ++ figures))

inductive Number (all : Prop) : List Char → Prop where
  | mk {sign whole fraction exponent : List Char} (signed : sign = [] ∨ sign = ['-'])
      (begins : Whole whole) (parted : Fraction fraction) (scaled : Exponent all exponent) :
      Number all (sign ++ whole ++ fraction ++ exponent)

/-- What a letter behind a backslash stands for. -/
def shorthands : List (Char × Char) :=
  [('"', '"'), ('\\', '\\'), ('/', '/'), ('b', '\x08'), ('f', '\x0c'), ('n', '\n'), ('r', '\r'), ('t', '\t')]

/-- A hexadecimal digit of either case. -/
def Hex (c : Char) (value : Nat) : Prop :=
  value < 16 ∧ (c = value.digitChar ∨ c = value.digitChar.toUpper)

instance (c : Char) (value : Nat) : Decidable (Hex c value) := inferInstanceAs (Decidable (_ ∧ _))

/-- The inside of a string, and what it says. The four digits of a character are those of its
code, so no half of a surrogate pair is escaped. -/
inductive Content : List Char → List Char → Prop where
  | nil : Content [] []
  | plain {c : Char} {text content : List Char} (visible : ' ' ≤ c) (apart : c ≠ '"') (bare : c ≠ '\\')
      (further : Content text content) : Content (c :: text) (c :: content)
  | short {letter c : Char} {text content : List Char} (known : (letter, c) ∈ shorthands)
      (further : Content text content) : Content ('\\' :: letter :: text) (c :: content)
  | code {c : Char} {hex text content : List Char} {values : List Nat} (spelled : List.Forall₂ Hex hex values)
      (four : values.length = 4) (whole : values.foldl (fun sum value => sum * 16 + value) 0 = c.toNat)
      (further : Content text content) : Content ('\\' :: 'u' :: (hex ++ text)) (c :: content)

mutual

/-- A value. -/
inductive Element (all : Prop) : List Char → Hocon.Value → Prop where
  | null : Element all ['n', 'u', 'l', 'l'] .null
  | yes : Element all ['t', 'r', 'u', 'e'] (.text "true")
  | no : Element all ['f', 'a', 'l', 's', 'e'] (.text "false")
  | number {text : List Char} (number : Number all text) : Element all text (.text (String.ofList text))
  | string {text content : List Char} (inside : Content text content) :
      Element all ('"' :: text ++ ['"']) (.text (String.ofList content))
  | emptyArray {gap : List Char} (space : Space gap) : Element all ('[' :: gap ++ [']']) (.array [])
  | array {text : List Char} {items : List Hocon.Value} (inside : Elements all text items) :
      Element all ('[' :: text ++ [']']) (.array items)
  | emptyObject {gap : List Char} (space : Space gap) :
      Element all ('\x7b' :: gap ++ ['\x7d']) (.object [])
  | object {text : List Char} {fields : Object} (inside : Members all text fields) :
      Element all ('\x7b' :: text ++ ['\x7d']) (.object fields)

/-- Values between commas. -/
inductive Elements (all : Prop) : List Char → List Hocon.Value → Prop where
  | last {before text behind : List Char} {item : Hocon.Value} (lead : Space before)
      (element : Element all text item) (trail : Space behind) :
      Elements all (before ++ text ++ behind) [item]
  | more {before text behind rest : List Char} {item : Hocon.Value} {items : List Hocon.Value}
      (lead : Space before) (element : Element all text item) (trail : Space behind)
      (further : Elements all rest items) :
      Elements all (before ++ text ++ behind ++ ',' :: rest) (item :: items)

/-- A key, a colon and a value. -/
inductive Member (all : Prop) : List Char → String × Hocon.Value → Prop where
  | mk {name key middle after text : List Char} {value : Hocon.Value} (named : Content name key)
      (part : Space middle) (flat : '\n' ∈ middle → all) (lead : Space after)
      (element : Element all text value) :
      Member all ('"' :: name ++ '"' :: middle ++ ':' :: after ++ text) (String.ofList key, value)

/-- Members between commas. -/
inductive Members (all : Prop) : List Char → Object → Prop where
  | last {before text behind : List Char} {field : String × Hocon.Value} (lead : Space before)
      (member : Member all text field) (trail : Space behind) :
      Members all (before ++ text ++ behind) [field]
  | more {before text behind rest : List Char} {field : String × Hocon.Value} {fields : Object}
      (lead : Space before) (member : Member all text field) (trail : Space behind)
      (further : Members all rest fields) :
      Members all (before ++ text ++ behind ++ ',' :: rest) (field :: fields)

end

/-- A whole text. -/
inductive Text (all : Prop) : List Char → Hocon.Value → Prop where
  | mk {before text behind : List Char} {value : Hocon.Value} (lead : Space before)
      (element : Element all text value) (trail : Space behind) : Text all (before ++ text ++ behind) value

end Hocon.Json.Syntax
