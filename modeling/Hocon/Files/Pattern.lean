import Hocon.Text.Split

/-! File name patterns: `?` stands for one character, `*` for any run inside a
name, brackets for one character of a class, and `**` between slashes for any
depth of directories. -/
namespace Hocon.Files

/-- Why a text is no pattern. -/
inductive PatternFault where
  /-- Three stars or more in a row. -/
  | wildcards (place : Nat)
  /-- Two stars that share a name with something else. -/
  | recursive (place : Nat)
  /-- A class of characters that is empty or not closed. -/
  | range (place : Nat)
deriving DecidableEq, Inhabited, Repr

def PatternFault.message : PatternFault → String
  | .wildcards place => shown place "wildcards are either regular `*` or recursive `**`"
  | .recursive place => shown place "recursive wildcards must form a single path component"
  | .range place => shown place "invalid range pattern"
where
  shown (place : Nat) (text : String) : String :=
    "Pattern syntax error near position " ++ toString place ++ ": " ++ text

/-- Part of a class of characters, both ends included. -/
structure CharRange where
  least : Char
  greatest : Char
deriving DecidableEq, Inhabited, Repr

def CharRange.contains (range : CharRange) (c : Char) : Bool :=
  range.least ≤ c && c ≤ range.greatest

/-- One element of a pattern. -/
inductive Mark where
  | char (c : Char)
  | anyChar
  | anyRun
  | anyDepth
  | oneOf (ranges : List CharRange)
  | noneOf (ranges : List CharRange)
deriving DecidableEq, Inhabited, Repr

namespace Mark

/-- Stands for a run of characters, not for one. -/
def isRun : Mark → Bool
  | .anyRun | .anyDepth => true
  | _ => false

/-- Whether a character is one of those that the mark stands for. -/
def accepts : Mark → Char → Bool
  | .char c, d => c == d
  | .oneOf ranges, d => ranges.any (·.contains d)
  | .noneOf ranges, d => !ranges.any (·.contains d)
  | .anyChar, _ | .anyRun, _ | .anyDepth, _ => true

end Mark

abbrev Pattern := List Mark

namespace Pattern

/-- The ranges of a class; a hyphen between two characters spans from one to the other. -/
def ranges : List Char → List CharRange
  | least :: '-' :: greatest :: rest => ⟨least, greatest⟩ :: ranges rest
  | c :: rest => ⟨c, c⟩ :: ranges rest
  | [] => []

/-- What stands before and after the first closing bracket. -/
def untilBracket? : List Char → Option (List Char × List Char)
  | [] => none
  | ']' :: rest => some ([], rest)
  | c :: rest => (untilBracket? rest).map fun (inside, after) => (c :: inside, after)

/-- The class after an opening bracket. Its first character is in it whatever it is,
behind the mark that negates it. -/
def class? : List Char → Option (Mark × List Char)
  | '!' :: first :: rest =>
    (untilBracket? rest).map fun (inside, after) => (.noneOf (ranges (first :: inside)), after)
  | first :: rest =>
    if first = '!' then none
    else (untilBracket? rest).map fun (inside, after) => (.oneOf (ranges (first :: inside)), after)
  | [] => none

theorem untilBracket?_shorter {text inside after : List Char}
    (found : untilBracket? text = some (inside, after)) : after.length < text.length := by
  fun_induction untilBracket? text generalizing inside after with
  | case1 => simp at found
  | case2 rest => simp at found; simp [found.2]
  | case3 c rest _ ih =>
    obtain ⟨⟨inner, later⟩, closed, same⟩ := Option.map_eq_some_iff.mp found
    simp only [Prod.mk.injEq] at same
    have shorter := ih closed
    simp only [List.length_cons, ← same.2]
    omega

theorem class?_shorter {text after : List Char} {mark : Mark}
    (found : class? text = some (mark, after)) : after.length < text.length := by
  fun_cases class? text with
  | case1 first rest =>
    simp only [class?, Option.map_eq_some_iff, Prod.mk.injEq] at found
    obtain ⟨⟨inside, later⟩, closed, _, same⟩ := found
    have shorter := untilBracket?_shorter closed
    simp only [List.length_cons, ← same]
    omega
  | case2 first rest => simp [class?] at found
  | case3 first rest _ other =>
    simp only [class?, if_neg other, Option.map_eq_some_iff, Prod.mk.injEq] at found
    obtain ⟨⟨inside, later⟩, closed, _, same⟩ := found
    have shorter := untilBracket?_shorter closed
    simp only [List.length_cons, ← same]
    omega
  | case4 => simp [class?] at found

/-- Read a pattern. `place` is the index of its next character, and `fresh` says
that a name begins there. -/
def read (place : Nat) (fresh : Bool) (text : List Char) : Except PatternFault Pattern :=
  match text with
  | [] => .ok []
  | '?' :: rest => do return .anyChar :: (← read (place + 1) false rest)
  | '*' :: '*' :: '*' :: _ => .error (.wildcards (place + 2))
  | '*' :: '*' :: rest =>
    if !fresh then .error (.recursive (place - 1))
    else match rest with
      | [] => .ok [.anyDepth]
      | '/' :: more => do return .anyDepth :: (← read (place + 3) true more)
      | _ => .error (.recursive (place + 2))
  | '*' :: rest => do return .anyRun :: (← read (place + 1) false rest)
  | '[' :: rest =>
    match closed : class? rest with
    | some (mark, after) =>
      do return mark :: (← read (place + 1 + (rest.length - after.length)) false after)
    | none => .error (.range place)
  | c :: rest => do return .char c :: (← read (place + 1) (c = '/') rest)
termination_by text.length
decreasing_by
  all_goals simp only [List.length_cons]
  all_goals try omega
  have shorter := class?_shorter closed
  omega

def ofText (text : String) : Except PatternFault Pattern := read 0 true text.toList

/-- The name that a pattern without wildcards spells. -/
def literal? : Pattern → Option (List Char)
  | [] => some []
  | .char c :: rest => (literal? rest).map (c :: ·)
  | _ :: _ => none

/-- Which ends of a pattern fit the empty name, from the whole pattern down to its
empty end. -/
def endsFitEmpty : Pattern → List Bool
  | [] => [true]
  | mark :: marks =>
    let ends := endsFitEmpty marks
    (mark.isRun && ends.headD false) :: ends

/-- Which ends fit a name that begins with `c`, from those that fit what follows it. -/
def endsFitCons (c : Char) : Pattern → List Bool → List Bool
  | mark :: marks, fit :: fits =>
    let ends := endsFitCons c marks fits
    (if mark.isRun then ends.headD false || fit else mark.accepts c && fits.headD false) :: ends
  | _, _ => [false]

/-- Which ends of a pattern fit a name. Every end meets every character once, however
many runs the pattern has. -/
def endsFit (pattern : Pattern) : List Char → List Bool
  | [] => endsFitEmpty pattern
  | c :: rest => endsFitCons c pattern (endsFit pattern rest)

/-- Whether a name fits. -/
def fits (pattern : Pattern) (name : List Char) : Bool := (endsFit pattern name).headD false

theorem endsFit_cons (mark : Mark) (marks : Pattern) (name : List Char) :
    endsFit (mark :: marks) name = fits (mark :: marks) name :: endsFit marks name := by
  induction name with
  | nil => rfl
  | cons c rest ih =>
    rw [endsFit, ih]
    simp only [fits, endsFit, endsFitCons]
    rw [ih]
    rfl

/-- Only the empty name fits the empty pattern. -/
theorem fits_nil (name : List Char) : fits [] name = name.isEmpty := by
  cases name <;> simp [fits, endsFit, endsFitEmpty, endsFitCons]

variable {mark : Mark} (marks : Pattern)

theorem fits_single_nil (single : mark.isRun = false) : fits (mark :: marks) [] = false := by
  simp [fits, endsFit, endsFitEmpty, single]

/-- A mark that is no run takes one character that it accepts. -/
theorem fits_single_cons (single : mark.isRun = false) (c : Char) (rest : List Char) :
    fits (mark :: marks) (c :: rest) = (mark.accepts c && fits marks rest) := by
  simp only [fits, endsFit]
  rw [endsFit_cons]
  simp [endsFitCons, single]

theorem fits_run_nil (run : mark.isRun = true) : fits (mark :: marks) [] = fits marks [] := by
  simp [fits, endsFit, endsFitEmpty, run]

/-- A run takes nothing, or one character and then what a run takes. -/
theorem fits_run_cons (run : mark.isRun = true) (c : Char) (rest : List Char) :
    fits (mark :: marks) (c :: rest) = (fits marks (c :: rest) || fits (mark :: marks) rest) := by
  rw [fits, endsFit, endsFit_cons]
  simp [endsFitCons, run, fits, endsFit]

/-- A text in which nothing is a wildcard any more. -/
def escape (text : String) : String :=
  String.ofList (text.toList.flatMap fun c =>
    if c = '?' || c = '*' || c = '[' || c = ']' then ['[', c, ']'] else [c])

end Pattern
end Hocon.Files
