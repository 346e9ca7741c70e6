import Hocon.Proofs.Places

/-! Where the faults of tokens point to. A fault is told at a character of the token that it is in. The
one place that is none is told where a newline is what cannot be escaped: it stands before the line
that the newline ends the line of, in no column. -/
namespace Hocon

/-- Where a report says that its fault is. -/
def Report.Subject.place? : Report.Subject → Option Position
  | .malformed _ place | .invalidToken _ place | .unexpectedEnd _ place | .unclosedString _ place
  | .unexpectedCharacter _ place | .unresolvedReference _ place => some place
  | _ => none

private theorem Report.Subject.text_of_place {subject : Report.Subject} {place : Position}
    (told : subject.place? = some place) : ∃ front back, subject.text = front ++ Report.placed place ++ back := by
  cases subject with
  | malformed message =>
    cases told
    exact ⟨"Syntax Error", ": " ++ message, String.append_assoc⟩
  | invalidToken token =>
    cases told
    exact ⟨"Invalid Token '" ++ token ++ "'", "", String.append_empty.symm⟩
  | unexpectedEnd message =>
    cases told
    exact ⟨"Unexpected EOF", ": " ++ message, String.append_assoc⟩
  | unclosedString quote =>
    cases told
    exact ⟨"Unclosed string starting with '" ++ quote.toString ++ "'", "", String.append_empty.symm⟩
  | unexpectedCharacter character =>
    cases told
    exact ⟨"Unexpected character '" ++ character.toString ++ "'", "", String.append_empty.symm⟩
  | unresolvedReference path =>
    cases told
    exact ⟨"Unresolved substitution " ++ asReference path, "", String.append_empty.symm⟩
  | _ => cases told

def Fault.isBadEscape : Fault → Bool
  | .badEscape .. => true
  | _ => false

/-- The place is that of a character in this run of characters, of which the first stands at `first`. -/
def Position.Within (found first : Position) (run : List Char) : Prop :=
  ∃ front c back, run = front ++ c :: back ∧ found = (first.past front).ahead

namespace Position

private theorem past_origin_newline (front : List Char) :
    origin.past (front ++ ['\n']) = ⟨(front ++ ['\n']).count '\n' + 1, 0⟩ := by
  have line : (origin.past (front ++ ['\n'])).line = (front ++ ['\n']).count '\n' + 1 := by
    rw [past_line, Nat.add_comm]
    rfl
  have column : (origin.past (front ++ ['\n'])).column = 0 := by
    rw [past_append]
    rfl
  rw [← line, ← column]

variable {found first : Position} {front run : List Char} {c : Char}

private theorem Within.append (within : found.Within first run) (more : List Char) :
    found.Within first (run ++ more) := by
  obtain ⟨front, c, back, rfl, here⟩ := within
  exact ⟨front, c, back ++ more, by simp, here⟩

private theorem within_head : first.ahead.Within first (c :: run) := ⟨[], c, run, rfl, rfl⟩

private theorem after_of_past {place : Position} (behind : place = first.past front) (c : Char) :
    place.after c = first.past (front ++ [c]) := by
  rw [past_append, ← behind]
  rfl

/-- The place behind a character is its own, unless it ends the line. -/
private theorem past_concat (line : c ≠ '\n') : first.past (front ++ [c]) = (first.past front).ahead := by
  rw [← after_of_past rfl, after, if_neg line, ahead]

private theorem within_last (line : c ≠ '\n') : (first.past (front ++ [c])).Within first (front ++ [c]) :=
  ⟨front, c, [], rfl, past_concat line⟩

end Position

/-- A scan that went over a run of characters tells its fault at one of them, unless it could not escape
the last one for a newline. -/
def Scan.Points {α : Type} (scan : Scan α) (first : Position) (text : List Char) : Prop :=
  ∀ fault, scan.outcome = .error fault → ∃ run place, text = run ++ scan.after.rest ∧
    fault.report.subject.place? = some place ∧
    if fault.isBadEscape ∧ run.getLast? = some '\n' then place = first.past run else place.Within first run

namespace Scan

variable {α β : Type} {first : Position} {text : List Char}

namespace Points

private theorem ok {value : α} {place : Position} {rest : List Char} :
    (ok value place rest).Points first text := by
  rintro fault ⟨⟩

private theorem map {scan : Scan α} (points : scan.Points first text) (f : α → β) :
    (scan.map f).Points first text := by
  intro fault failed
  refine points fault ?_
  cases outcome : scan.outcome with
  | error cause =>
    simp only [Scan.map, outcome, Except.map] at failed
    rw [Except.error.inj failed]
  | ok value => simp [Scan.map, outcome, Except.map] at failed

private theorem pass {scan : Scan α} (points : scan.Points first text) {fault : Fault}
    (failed : scan.outcome = .error fault) :
    (⟨.error fault, scan.after⟩ : Scan β).Points first text := by
  rintro _ ⟨⟩
  exact points fault failed

private theorem within {fault : Fault} {place found : Position} {run rest : List Char}
    (told : fault.report.subject.place? = some found) (proper : fault.isBadEscape = false)
    (whole : text = run ++ rest) (within : found.Within first run) :
    (fail fault place rest : Scan α).Points first text := by
  rintro _ ⟨⟩
  refine ⟨run, found, whole, told, ?_⟩
  rw [if_neg (by simp [proper])]
  exact within

private theorem last {place : Position} {sequence : String} {front rest : List Char} {c : Char}
    (behind : place = first.past (front ++ [c])) (whole : text = front ++ c :: rest) :
    (fail (.badEscape sequence place) place rest : Scan α).Points first text := by
  rintro _ ⟨⟩
  refine ⟨front ++ [c], place, by simp [whole, fail], rfl, ?_⟩
  split
  · exact behind
  · rename_i other
    rw [behind]
    refine Position.within_last fun newline => other ⟨rfl, ?_⟩
    rw [List.getLast?_concat, newline]

end Points

variable {opened place : Position} {front : List Char} {c : Char}

private theorem codePoint_points (seen : List Char) (value : Nat) (missing : Nat) (rest : List Char)
    (behind : place = first.past (front ++ [c])) :
    (codePoint seen value place missing rest).Points first (front ++ c :: rest) := by
  fun_induction codePoint seen value place missing rest generalizing front c with
  | case1 => exact .ok
  | case2 => exact .last behind rfl
  | case3 => exact .last behind rfl
  | case4 seen value place missing d rest digit known ih =>
    simpa using ih (Position.after_of_past behind d)
  | case5 seen value place _ missing d rest =>
    exact .last (Position.after_of_past behind d) (by simp)

private theorem escape_points (rest : List Char) (behind : place = first.past (front ++ ['\\'])) :
    (escape place rest).Points first (front ++ '\\' :: rest) := by
  cases rest with
  | nil => exact .within rfl rfl (List.append_nil _).symm (behind ▸ Position.within_last (by decide))
  | cons c rest =>
    have step := Position.after_of_past behind c
    have whole : front ++ '\\' :: c :: rest = (front ++ ['\\']) ++ c :: rest := by simp
    rw [escape, whole]
    split
    · exact codePoint_points [] 0 4 rest step
    · split
      · exact .ok
      · exact .last step rfl

/-- A quoted text is told by its opening quote. -/
private theorem quoted_points (rest : List Char) (start : opened.Within first front)
    (behind : place = first.past front) :
    (quoted opened place rest).Points first (front ++ rest) := by
  fun_induction quoted opened place rest generalizing front with
  | case1 => exact .within rfl rfl rfl start
  | case2 => exact .ok
  | case3 place rest =>
    exact .within rfl rfl (List.append_cons front '\n' rest) (start.append ['\n'])
  | case4 place rest decoded next =>
    rename_i ih
    obtain ⟨used, covers⟩ := escape_covers next rest
    have further := ih (start.append ('\\' :: used)) (by rw [covers.place, Position.past_append, ← behind]; rfl)
    have whole : front ++ '\\' :: used ++ (escape next rest).after.rest = front ++ '\\' :: rest := by
      simp [← covers.whole]
    exact whole ▸ further.map _
  | case5 place rest fault next =>
    rename_i failed
    exact (escape_points rest (Position.after_of_past behind '\\')).pass failed
  | case6 place c rest next =>
    rename_i ih
    have further := ih (start.append [c]) (Position.after_of_past behind c)
    rw [List.append_cons]
    exact further.map _

private theorem tripleQuoted_points (rest : List Char) (start : opened.Within first front) :
    (tripleQuoted opened place rest).Points first (front ++ rest) := by
  fun_induction tripleQuoted opened place rest generalizing front with
  | case1 => exact .within rfl rfl rfl start
  | case2 => exact .ok
  | case3 place c rest _ ih =>
    rw [List.append_cons]
    exact (ih (start.append [c])).map _

/-- A reference is told by its dollar sign, what does not belong in it by itself. -/
private theorem referencePath_points (builder : KeyPath.Builder) (rest : List Char)
    (start : opened.Within first front)
    (behind : place = first.past front) : (referencePath opened builder place rest).Points first (front ++ rest) := by
  fun_induction referencePath opened builder place rest generalizing front with
  | case1 => exact .within rfl rfl rfl start
  | case2 => exact .ok
  | case3 => exact .within rfl rfl (List.append_cons front _ _) (start.append [_])
  | case4 builder place rest content next =>
    rename_i ih
    obtain ⟨used, covers⟩ := quoted_covers place.ahead next rest
    have further := ih (start.append ('"' :: used)) (by rw [covers.place, Position.past_append, ← behind]; rfl)
    have whole : front ++ '"' :: used ++ (quoted place.ahead next rest).after.rest = front ++ '"' :: rest := by
      simp [← covers.whole]
    exact whole ▸ further
  | case5 builder place rest fault next =>
    rename_i failed
    have quote : place.ahead.Within first (front ++ ['"']) := ⟨front, '"', [], rfl, by rw [behind]⟩
    have inside := quoted_points rest quote (Position.after_of_past behind '"')
    rw [List.append_cons]
    exact inside.pass failed
  | case6 builder place rest longer =>
    rename_i ih
    rw [List.append_cons]
    exact ih (start.append ['.']) (Position.after_of_past behind '.')
  | case7 => exact .within rfl rfl (List.append_cons front _ _) (start.append [_])
  | case8 builder place c rest =>
    rename_i ih
    rw [List.append_cons]
    exact ih (start.append [c]) (Position.after_of_past behind c)
  | case9 => exact .within rfl rfl rfl start
  | case10 builder place c rest =>
    rename_i line _
    have last : (place.after c).Within first (front ++ [c]) :=
      Position.after_of_past behind c ▸ Position.within_last line
    exact .within rfl rfl (List.append_cons front c rest) last
  | case11 builder place c rest =>
    rename_i ih
    rw [List.append_cons]
    exact ih (start.append [c]) (Position.after_of_past behind c)

private theorem reference_points (rest : List Char) (start : opened.Within first front)
    (behind : place = first.past front) :
    (reference opened place rest).Points first (front ++ rest) := by
  unfold reference
  split
  · rename_i rest
    have opening := Position.after_of_past behind '\x7b'
    have further := referencePath_points .empty rest ((start.append ['\x7b']).append ['?'])
      (Position.after_of_past opening '?')
    simpa using further.map _
  · rename_i rest _
    have further := referencePath_points .empty rest (start.append ['\x7b']) (Position.after_of_past behind '\x7b')
    rw [List.append_cons]
    exact further.map _
  · exact .within rfl rfl rfl start

end Scan

namespace Cursor

/-- A token points into its own characters. -/
private theorem token_points (first : Position) (text : List Char) : (token first text).Points first text := by
  unfold token
  split
  · exact .ok
  · exact .ok
  · rename_i rest
    exact Scan.reference_points rest (Position.within_head : first.ahead.Within first ['$']) rfl
  · rename_i rest
    exact (Scan.tripleQuoted_points rest (Position.within_head : first.ahead.Within first ['"', '"', '"'])).map _
  · rename_i rest _
    exact (Scan.quoted_points rest (Position.within_head : first.ahead.Within first ['"']) rfl).map _
  · rename_i c rest _ _ _ _
    cases known : symbol? c with
    | some symbol => exact .ok
    | none =>
      have line : c ≠ '\n' := by
        rintro rfl
        cases known
      simp only []
      split
      · have last : (first.past ([] ++ [c])).Within first ([] ++ [c]) := Position.within_last line
        exact .within rfl rfl (List.append_cons [] c rest) last
      · exact .ok

/-- The cursor behind a number of calls, which go on behind faults. -/
def afterCalls (cursor : Cursor) : Nat → Cursor
  | 0 => cursor
  | calls + 1 => (cursor.afterCalls calls).read.after

private theorem afterCalls_covers (cursor : Cursor) (calls : Nat) :
    ∃ used, cursor.rest = used ++ (cursor.afterCalls calls).rest ∧
      (cursor.afterCalls calls).place = cursor.place.past used := by
  induction calls with
  | zero => exact ⟨[], rfl, rfl⟩
  | succ calls ih =>
    obtain ⟨front, whole, place⟩ := ih
    obtain ⟨token, covers, _⟩ := (cursor.afterCalls calls).read_covers
    generalize (cursor.afterCalls calls).blanks ++ (cursor.afterCalls calls).remark ++ token = used at covers
    refine ⟨front ++ used, ?_, ?_⟩
    · rw [List.append_assoc, whole]
      exact congrArg (front ++ ·) covers.whole
    · rw [Position.past_append, ← place]
      exact covers.place

private theorem skip_place (cursor : Cursor) :
    cursor.skip.place = cursor.place.past (cursor.blanks ++ cursor.remark) := rfl

/-- A call that meets a fault goes over some characters of the text, and shows the fault at the line and
column of one of them, both counted from one. It does so just when the fault is not that a newline, the
last of these characters, cannot be escaped; that one is shown in column zero of the next line. -/
theorem fault_within_iff (text : String) (calls : Nat) :
    let cursor := (ofText text).afterCalls calls
    ∀ fault, cursor.read.scan.outcome = .error fault → ∃ before run place,
      text.toList = before ++ cursor.skip.rest ∧ cursor.skip.rest = run ++ cursor.read.after.rest ∧
        fault.report.subject.place? = some place ∧
        (∃ front back, fault.report.subject.text = front ++ Report.placed place ++ back) ∧
        ((∃ front c back, run = front ++ c :: back ∧ place = .behind (before ++ front)) ↔
          ¬ (fault.isBadEscape ∧ run.getLast? = some '\n')) ∧
        (fault.isBadEscape ∧ run.getLast? = some '\n' → place = ⟨(before ++ run).count '\n' + 1, 0⟩) := by
  intro cursor fault failed
  obtain ⟨front, whole, there⟩ := (ofText text).afterCalls_covers calls
  obtain ⟨run, place, split, told, points⟩ := token_points cursor.skip.place cursor.skip.rest fault failed
  let before := front ++ (cursor.blanks ++ cursor.remark)
  have start : cursor.skip.place = Position.origin.past before := by
    rw [skip_place, there, ← Position.past_append]
    rfl
  have escaped (bad : fault.isBadEscape ∧ run.getLast? = some '\n') :
      place = ⟨(before ++ run).count '\n' + 1, 0⟩ := by
    rw [if_pos bad, start, ← Position.past_append] at points
    obtain ⟨lines, rfl⟩ := List.getLast?_eq_some_iff.mp bad.2
    rw [points, ← List.append_assoc]
    exact Position.past_origin_newline (before ++ lines)
  refine ⟨before, run, place, ?_, split, told, Report.Subject.text_of_place told, ⟨?_, fun proper => ?_⟩, escaped⟩
  · calc text.toList
        = front ++ cursor.rest := whole
      _ = before ++ cursor.skip.rest := by
        rw [cursor.skip_append, List.append_assoc front]
  · rintro ⟨_, _, _, _, here⟩ bad
    rw [escaped bad] at here
    cases congrArg Position.column here
  · rw [if_neg proper] at points
    obtain ⟨lines, c, back, within, here⟩ := points
    refine ⟨lines, c, back, within, ?_⟩
    rw [here, start, ← Position.past_append, Position.ahead_past_origin]

/-- Behind a fault the next call points on from where the one before it ended. -/
theorem fault_within_behind_fault :
    let text := "$\n\"\\q\""
    let cursor := (ofText text).afterCalls 2
    cursor.read.scan.outcome = .error (.badEscape "\\q" ⟨2, 3⟩) ∧ ∃ before run place,
      text.toList = before ++ cursor.skip.rest ∧ cursor.skip.rest = run ++ cursor.read.after.rest ∧
        (Fault.badEscape "\\q" ⟨2, 3⟩).report.subject.place? = some place ∧
        (∃ front back, (Fault.badEscape "\\q" ⟨2, 3⟩).report.subject.text = front ++ Report.placed place ++ back) ∧
        ((∃ front c back, run = front ++ c :: back ∧ place = .behind (before ++ front)) ↔
          ¬ ((Fault.badEscape "\\q" ⟨2, 3⟩).isBadEscape ∧ run.getLast? = some '\n')) ∧
        ((Fault.badEscape "\\q" ⟨2, 3⟩).isBadEscape ∧ run.getLast? = some '\n' →
          place = ⟨(before ++ run).count '\n' + 1, 0⟩) := by
  intro text cursor
  have failed : cursor.read.scan.outcome = .error (.badEscape "\\q" ⟨2, 3⟩) := by decide +kernel
  exact ⟨failed, fault_within_iff text 2 _ failed⟩

/-- Not every fault is shown at a character of the text: one that is met in escaping a newline is shown
in column zero. -/
theorem escaped_newline_shown_nowhere :
    ¬∀ (text : String) (calls : Nat) (fault : Fault),
      ((ofText text).afterCalls calls).read.scan.outcome = .error fault →
      ∃ front c back, text.toList = front ++ c :: back ∧ fault.report.subject.place? = some (.behind front) := by
  intro always
  have failed : ((ofText "\"\\\n").afterCalls 0).read.scan.outcome = .error (.badEscape "\\\n" ⟨2, 0⟩) := by
    decide +kernel
  obtain ⟨front, c, back, _, told⟩ := always _ 0 _ failed
  cases congrArg Position.column (Option.some.inj told)

end Cursor
end Hocon
