import Hocon.Files.Search
import Hocon.Proofs.Splitting

namespace Hocon.Files

/-- A character that means something else in a pattern. -/
def isWild (c : Char) : Bool := c = '?' || c = '*' || c = '[' || c = ']'

namespace Pattern

/-- A character, in brackets if it is a wildcard. -/
def bracketed (c : Char) : List Char := if isWild c then ['[', c, ']'] else [c]

/-- What a pattern has for a character that stands for itself. -/
def only (c : Char) : Mark := if isWild c then .oneOf [⟨c, c⟩] else .char c

theorem toList_escape (text : String) : (escape text).toList = text.toList.flatMap bracketed :=
  String.toList_ofList

theorem escape_append (first second : String) : escape (first ++ second) = escape first ++ escape second := by
  rw [← String.toList_inj, String.toList_append]
  simp only [toList_escape, String.toList_append, List.flatMap_append]

private theorem read_bracketed (place : Nat) (fresh : Bool) (c : Char) (rest : List Char) :
    ∃ next again, read place fresh (bracketed c ++ rest) = (read next again rest).map (only c :: ·) := by
  by_cases wild : isWild c
  · have opened : bracketed c ++ rest = '[' :: c :: ']' :: rest := by simp [bracketed, wild]
    have closed : class? (c :: ']' :: rest) = some (only c, rest) := by
      simp only [isWild, Bool.or_eq_true, decide_eq_true_eq] at wild
      rcases wild with ((rfl | rfl) | rfl) | rfl <;> rfl
    refine ⟨place + 1 + ((c :: ']' :: rest).length - rest.length), false, ?_⟩
    rw [opened, read]
    split
    · rename_i mark after found
      rw [closed] at found
      cases found
      rfl
    · rename_i found
      rw [closed] at found
      cases found
  · have plain : bracketed c ++ rest = c :: rest := by simp [bracketed, wild]
    have single : only c = .char c := by simp [only, wild]
    simp only [isWild, Bool.or_eq_true, decide_eq_true_eq, not_or] at wild
    obtain ⟨⟨⟨one, run⟩, opening⟩, _⟩ := wild
    refine ⟨place + 1, c = '/', ?_⟩
    rw [plain, single]
    rw [read]
    · rfl
    · exact one
    · exact fun _ star _ => run star
    · exact fun _ star _ => run star
    · exact run
    · exact opening

private theorem read_escaped (place : Nat) (fresh : Bool) (text : List Char) :
    read place fresh (text.flatMap bracketed) = .ok (text.map only) := by
  induction text generalizing place fresh with
  | nil => rw [List.flatMap_nil, read, List.map_nil]
  | cons c rest ih =>
    obtain ⟨next, again, step⟩ := read_bracketed place fresh c (rest.flatMap bracketed)
    rw [List.flatMap_cons, step, ih]
    rfl

private theorem ofText_escape (text : String) : ofText (escape text) = .ok (text.toList.map only) := by
  rw [ofText, toList_escape, read_escaped]

private theorem slash_notMem_bracketed {c : Char} (other : c ≠ '/') : '/' ∉ bracketed c := by
  unfold bracketed
  split <;> simp [other.symm]

private theorem split_bracketed (text : List Char) :
    Text.split '/' (text.flatMap bracketed) = (Text.split '/' text).map (·.flatMap bracketed) := by
  induction text with
  | nil => rfl
  | cons c rest ih =>
    by_cases cut : c = '/'
    · subst cut
      exact congrArg ([] :: ·) ih
    · rw [List.flatMap_cons, Text.split_append_of_notMem (slash_notMem_bracketed cut), ih, Text.split_cons_of_ne cut]
      obtain ⟨part, parts, whole⟩ := List.exists_cons_of_ne_nil (Text.split_ne_nil '/' rest)
      rw [whole]
      rfl

private theorem splitAt_escape (text : String) :
    Text.splitAt '/' (escape text) = (Text.splitAt '/' text).map escape := by
  unfold Text.splitAt
  rw [toList_escape, split_bracketed, List.map_map, List.map_map]
  refine List.map_congr_left fun part _ => ?_
  rw [Function.comp, Function.comp, ← String.ofList_toList (s := escape _), toList_escape, String.toList_ofList]

private theorem escape_eq_empty_iff {text : String} : escape text = "" ↔ text = "" := by
  rw [← String.toList_eq_nil_iff, toList_escape, ← String.toList_eq_nil_iff]
  cases text.toList with
  | nil => exact Iff.rfl
  | cons c rest =>
    have some : bracketed c ≠ [] := by
      unfold bracketed
      split <;> simp
    simp [some]

theorem isAbsolute_escape (text : String) : (FilePath.mk (escape text)).isAbsolute = (FilePath.mk text).isAbsolute := by
  unfold FilePath.isAbsolute
  rw [toList_escape]
  cases text.toList with
  | nil => rfl
  | cons c rest =>
    rw [List.flatMap_cons, bracketed]
    split
    · rename_i wild
      have other : c ≠ '/' := by
        rintro rfl
        cases wild
      simp [other]
    · rfl

end Pattern

namespace FilePath

private theorem segments_escape (text : String) :
    (FilePath.mk (Pattern.escape text)).segments = (FilePath.mk text).segments.map Pattern.escape := by
  unfold segments
  rw [Pattern.isAbsolute_escape]
  simp only [Pattern.splitAt_escape]
  cases Text.splitAt '/' text with
  | nil => rfl
  | cons part parts =>
    by_cases none : part = ""
    · subst none
      have kept : Pattern.escape "" = "" := rfl
      simp only [List.map_cons, kept]
      split <;> rfl
    · have some : Pattern.escape part ≠ "" := mt Pattern.escape_eq_empty_iff.mp none
      simp [none, some]

/-- Escaping leaves no segment empty that was not. -/
theorem getLast?_segments_escape {text : String} (last : (FilePath.mk text).segments.getLast? ≠ some "") :
    (FilePath.mk (Pattern.escape text)).segments.getLast? ≠ some "" := by
  rw [segments_escape, List.getLast?_map]
  intro none
  obtain ⟨name, final, none⟩ := Option.map_eq_some_iff.mp none
  rw [Pattern.escape_eq_empty_iff.mp none] at final
  exact last final

end FilePath

namespace Pattern

private theorem accepts_only (c d : Char) : (only c).accepts d = decide (c = d) := by
  unfold only
  split
  · simp only [Mark.accepts, List.any_cons, List.any_nil, Bool.or_false, CharRange.contains, ← Bool.decide_and]
    exact decide_eq_decide.mpr
      ⟨fun both => Char.le_antisymm both.1 both.2, fun same => same ▸ ⟨Char.le_refl c, Char.le_refl c⟩⟩
  · exact Bool.eq_iff_iff.mpr (by simp [Mark.accepts])

private theorem isRun_only (c : Char) : (only c).isRun = false := by
  unfold only
  split <;> rfl

theorem fits_only (text name : List Char) : fits (text.map only) name = decide (text = name) := by
  induction text generalizing name with
  | nil => cases name <;> simp [fits_nil]
  | cons c rest ih =>
    cases name with
    | nil => simpa using fits_single_nil (rest.map only) (isRun_only c)
    | cons d name => simp [fits_single_cons _ (isRun_only c), accepts_only, ih]

private theorem literal?_only (text : List Char) :
    literal? (text.map only) = if text.any isWild then none else some text := by
  induction text with
  | nil => rfl
  | cons c rest ih =>
    by_cases wild : isWild c
    · simp [only, wild, literal?]
    · have plain : literal? ((c :: rest).map only) = (literal? (rest.map only)).map (c :: ·) := by
        rw [List.map_cons, only, if_neg wild, literal?]
      rw [plain, ih, List.any_cons, Bool.eq_false_iff.mpr wild, Bool.false_or]
      split <;> rfl

end Pattern

namespace Step

/-- The step that leads to one name alone. -/
def named (name : String) : Step := ofPattern (name.toList.map Pattern.only)

variable {name : String}

theorem named_eq (name : String) : named name =
    if name.toList.any isWild then .fitting (name.toList.map Pattern.only) else .literal name := by
  have shallow : ¬ (name.toList.map Pattern.only).contains .anyDepth := by
    simp only [List.contains_iff_mem, List.mem_map, not_exists, not_and]
    intro c _ same
    cases same ▸ Pattern.isRun_only c
  rw [named, ofPattern, if_neg shallow, Pattern.literal?_only]
  by_cases wild : name.toList.any isWild = true
  · rw [if_pos wild, if_pos wild]
  · rw [if_neg wild, if_neg wild]
    exact congrArg _ String.ofList_toList

theorem specials_named (wild : name.toList.any isWild = true) : specials (name.toList.map Pattern.only) = [] := by
  unfold specials
  split
  · rw [List.filter_eq_nil_iff]
    intro other special
    rw [Pattern.fits_only, decide_eq_true_eq]
    intro same
    rw [same] at wild
    simp only [List.mem_cons, List.not_mem_nil, or_false] at special
    rcases special with rfl | rfl <;> exact absurd wild (by decide)
  · rfl

end Step

/-- A pattern that does not end in a slash has a step for each of its segments. -/
private theorem Tree.steps_of_last {pattern : FilePath} (last : pattern.segments.getLast? ≠ some "") :
    steps pattern = do
      let _ ← Pattern.ofText pattern.text
      let compiled ← pattern.segments.mapM Pattern.ofText
      return compiled.map Step.ofPattern := by
  unfold steps
  refine congrArg _ (funext fun _ => ?_)
  dsimp only
  split
  · rename_i earlier ends
    refine absurd ?_ last
    rw [← List.head?_reverse, ends]
    rfl
  · rfl

/-- The steps of an escaped text are the names between its slashes. -/
theorem Tree.steps_escape {text : String} (last : (FilePath.mk text).segments.getLast? ≠ some "") :
    steps ⟨Pattern.escape text⟩ = .ok ((FilePath.mk text).segments.map Step.named) := by
  have compiled : ((FilePath.mk text).segments.map Pattern.escape).mapM Pattern.ofText =
      .ok ((FilePath.mk text).segments.map fun name => name.toList.map Pattern.only) := by
    rw [List.mapM_map, show Pattern.ofText ∘ Pattern.escape = _ from funext Pattern.ofText_escape]
    exact List.mapM_pure
  rw [steps_of_last (FilePath.getLast?_segments_escape last), Pattern.ofText_escape, FilePath.segments_escape, compiled]
  exact congrArg Except.ok List.map_map

end Hocon.Files
