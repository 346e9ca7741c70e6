import Hocon.Fault
import Hocon.Text.Blank

/-! Reading a text character by character. Each scanner says what it read, or the
fault it met, and where reading stands after that; a fault too has an afterwards. -/
namespace Hocon

/-- How far a text has been read. -/
structure Cursor where
  place : Position
  rest : List Char
deriving DecidableEq, Inhabited, Repr

namespace Cursor

def ofText (text : String) : Cursor := ⟨.origin, text.toList⟩

/-- The cursor behind a run of characters, which `rest` follows. -/
def past (cursor : Cursor) (used rest : List Char) : Cursor := ⟨cursor.place.past used, rest⟩

end Cursor

structure Scan (α : Type) where
  outcome : Except Fault α
  after : Cursor

namespace Scan

def ok {α : Type} (value : α) (place : Position) (rest : List Char) : Scan α :=
  ⟨.ok value, ⟨place, rest⟩⟩

def fail {α : Type} (fault : Fault) (place : Position) (rest : List Char) : Scan α :=
  ⟨.error fault, ⟨place, rest⟩⟩

def map {α β : Type} (f : α → β) (scan : Scan α) : Scan β := ⟨scan.outcome.map f, scan.after⟩

@[simp] theorem after_ok {α : Type} (value : α) (place : Position) (rest : List Char) :
    (ok value place rest).after = ⟨place, rest⟩ := rfl

@[simp] theorem after_fail {α : Type} (fault : Fault) (place : Position) (rest : List Char) :
    (fail fault place rest : Scan α).after = ⟨place, rest⟩ := rfl

@[simp] theorem after_map {α β : Type} (f : α → β) (scan : Scan α) :
    (scan.map f).after = scan.after := rfl

end Scan

/-- Outside quotes these characters stand in no word. -/
def isForbidden (c : Char) : Bool :=
  ['$', '"', '\x7b', '\x7d', '[', ']', ':', '=', ',', '+', '#', '\x60', '^', '?', '!', '@', '*', '&',
    '\\'].contains c || Text.isWhite c || c == '\uFEFF'

/-- Two slashes or a hash begin a comment. -/
def startsComment : List Char → Bool
  | '#' :: _ => true
  | '/' :: '/' :: _ => true
  | _ => false

/-- The comment at the front, up to its newline, which stays. -/
def comment (text : List Char) : List Char :=
  if startsComment text then text.takeWhile (· != '\n') else []

/-- The word at the front, and what follows it. Two slashes end a word like a
forbidden character does. -/
def word : List Char → List Char × List Char
  | [] => ([], [])
  | c :: rest =>
    if isForbidden c || startsComment (c :: rest) then ([], c :: rest)
    else ((c :: (word rest).1), (word rest).2)

theorem word_append (text : List Char) : (word text).1 ++ (word text).2 = text := by
  induction text with
  | nil => rfl
  | cons c rest ih => simp only [word]; split <;> simp [ih]

theorem word_letters (text : List Char) : ∀ c ∈ (word text).1, isForbidden c = false := by
  induction text with
  | nil => simp [word]
  | cons c rest ih =>
    rw [word]
    split
    case isTrue => simp
    case isFalse going =>
      refine List.forall_mem_cons.mpr ⟨?_, ih⟩
      simp_all

/-- A letter that begins no comment goes on with a word. -/
theorem word_of_letter {c : Char} {text : List Char} (letter : isForbidden c = false)
    (code : startsComment (c :: text) = false) : word (c :: text) = (c :: (word text).1, (word text).2) := by
  rw [word, if_neg (by simp [letter, code])]

theorem word_rest_le (text : List Char) : (word text).2.length ≤ text.length := by
  have whole := congrArg List.length (word_append text)
  simp only [List.length_append] at whole
  omega

end Hocon
