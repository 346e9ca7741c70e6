import Hocon.Lexeme

namespace Hocon

def Fault.isIncludeCycle : Fault → Bool
  | .includeCycle _ => true
  | _ => false

/-- A fault that needs no file. -/
def Fault.Local (fault : Fault) : Prop := fault.isIncludeCycle = false

/-- A fault in a token. -/
def Fault.isLexical : Fault → Bool
  | .unexpectedCharacter .. | .unexpectedInReference .. | .unclosedQuoted _ | .unclosedTriple _
  | .trailingBackslash _ | .badEscape .. | .noBraceInReference _ | .unclosedReference _
  | .emptyPathSegment _ => true
  | _ => false

private theorem Fault.local_of_isLexical {fault : Fault} (lexical : fault.isLexical = true) : fault.Local := by
  cases fault <;> first | rfl | cases lexical

/-- A scan whose fault, if it meets one, needs no file. -/
def Scan.Local {α : Type} (scan : Scan α) : Prop :=
  ∀ fault, scan.outcome = .error fault → fault.Local

/-- A scan whose fault, if it meets one, is in a token. -/
def Scan.Lexical {α : Type} (scan : Scan α) : Prop :=
  ∀ fault, scan.outcome = .error fault → fault.isLexical = true

namespace Scan

variable {α β : Type}

private theorem Lexical.ok {value : α} {place : Position} {rest : List Char} :
    (ok value place rest).Lexical := by
  intro fault failed
  cases failed

private theorem Lexical.fail {fault : Fault} {place : Position} {rest : List Char}
    (own : fault.isLexical = true) :
    (fail fault place rest : Scan α).Lexical := by
  rintro _ ⟨⟩
  exact own

private theorem Lexical.map {scan : Scan α} (own : scan.Lexical) (f : α → β) : (scan.map f).Lexical := by
  intro fault failed
  refine own fault ?_
  cases outcome : scan.outcome with
  | error cause =>
    simp only [Scan.map, outcome, Except.map] at failed
    rw [Except.error.inj failed]
  | ok value => simp [Scan.map, outcome, Except.map] at failed

private theorem Lexical.pass {scan : Scan α} (own : scan.Lexical) {fault : Fault}
    (failed : scan.outcome = .error fault) (after : Cursor) : (⟨.error fault, after⟩ : Scan β).Lexical := by
  rintro _ ⟨⟩
  exact own fault failed

private theorem codePoint_lexical (seen : List Char) (value : Nat) (place : Position) (missing : Nat)
    (text : List Char) : (codePoint seen value place missing text).Lexical := by
  fun_induction codePoint seen value place missing text with
  | case1 => exact .ok
  | case4 seen value place missing c rest digit _ ih => exact ih
  | _ => exact .fail rfl

private theorem escape_lexical (place : Position) (text : List Char) : (escape place text).Lexical := by
  cases text with
  | nil => exact .fail rfl
  | cons c rest =>
    rw [escape]
    split
    · exact codePoint_lexical _ _ _ _ _
    · split
      · exact .ok
      · exact .fail rfl

private theorem quoted_lexical (opened place : Position) (text : List Char) :
    (quoted opened place text).Lexical := by
  fun_induction quoted opened place text with
  | case2 => exact .ok
  | case4 place rest decoded next _ _ _ ih => exact ih.map _
  | case5 place rest fault next _ _ failed => exact (escape_lexical next rest).pass failed _
  | case6 place c rest next _ _ _ ih => exact ih.map _
  | _ => exact .fail rfl

private theorem tripleQuoted_lexical (opened place : Position) (text : List Char) :
    (tripleQuoted opened place text).Lexical := by
  fun_induction tripleQuoted opened place text with
  | case1 => exact .fail rfl
  | case2 => exact .ok
  | case3 place c rest _ ih => exact ih.map _

private theorem referencePath_lexical (start : Position) (builder : KeyPath.Builder) (place : Position)
    (text : List Char) : (referencePath start builder place text).Lexical := by
  fun_induction referencePath start builder place text with
  | case2 => exact .ok
  | case4 builder place rest content next _ _ ih => exact ih
  | case5 builder place rest fault next _ failed => exact (quoted_lexical place.ahead next rest).pass failed _
  | case6 builder place rest longer _ next _ _ ih => exact ih
  | case8 builder place c rest next _ _ _ _ ih => exact ih
  | case11 builder place c rest next _ _ _ _ _ _ ih => exact ih
  | _ => exact .fail rfl

private theorem reference_lexical (start place : Position) (text : List Char) :
    (reference start place text).Lexical := by
  unfold reference
  split
  · exact (referencePath_lexical _ _ _ _).map _
  · exact (referencePath_lexical _ _ _ _).map _
  · exact .fail rfl

end Scan

theorem Cursor.token_lexical (place : Position) (text : List Char) : (token place text).Lexical := by
  unfold token
  split
  · exact .ok
  · exact .ok
  · exact Scan.reference_lexical _ _ _
  · exact (Scan.tripleQuoted_lexical _ _ _).map _
  · exact (Scan.quoted_lexical _ _ _).map _
  · split
    · exact .ok
    · split
      · exact .fail rfl
      · exact .ok

theorem Cursor.token_local (place : Position) (text : List Char) : (token place text).Local :=
  fun fault failed => Fault.local_of_isLexical (token_lexical place text fault failed)

end Hocon
