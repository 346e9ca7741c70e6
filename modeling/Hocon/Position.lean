/-! Lines and columns. Lines count from one; a column counts the characters of
its line up to and including the one it names, so column zero stands before a line. -/
namespace Hocon

structure Position where
  line : Nat
  column : Nat
deriving DecidableEq, Inhabited, Repr

namespace Position

/-- Before the first character of a text. -/
def origin : Position := ⟨1, 0⟩

/-- Where reading stands after one more character. -/
def after (place : Position) (c : Char) : Position :=
  if c = '\n' then ⟨place.line + 1, 0⟩ else ⟨place.line, place.column + 1⟩

/-- Where reading stands after a run of characters. -/
def past (place : Position) (text : List Char) : Position :=
  text.foldl after place

/-- The place of the character that comes next. -/
def ahead (place : Position) : Position := ⟨place.line, place.column + 1⟩

@[simp] theorem past_nil (place : Position) : place.past [] = place := rfl

@[simp] theorem past_cons (place : Position) (c : Char) (text : List Char) :
    place.past (c :: text) = (place.after c).past text := rfl

@[simp] theorem past_append (place : Position) (first second : List Char) :
    place.past (first ++ second) = (place.past first).past second := List.foldl_append

theorem past_line (place : Position) (text : List Char) :
    (place.past text).line = place.line + text.count '\n' := by
  induction text generalizing place with
  | nil => simp
  | cons c rest ih =>
    rw [past_cons, ih, List.count_cons]
    by_cases newline : c = '\n'
    · simp only [after, newline, if_true, beq_self_eq_true]
      omega
    · simp [after, newline]

end Position
end Hocon
