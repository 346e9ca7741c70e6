import Hocon.Proofs.Scanning

/-! Texts by their marks: tokens with the blanks in front of them. Reading a text goes over marks
to a place in it, and over the same marks when what it has reached is exchanged. -/
namespace Hocon

/-- A token and the blanks in front of it. Where it stands is left aside. -/
structure Mark where
  space : String
  token : Token
deriving DecidableEq

def Lexeme.mark (lexeme : Lexeme) : Mark := ⟨lexeme.space, lexeme.token⟩

/-- One step of reading goes over a mark, wherever the text stands. -/
structure Takes (text : List Char) (mark : Mark) (rest : List Char) : Prop where
  proper : mark.token ≠ .endOfText
  reads : ∀ place, (⟨place, text⟩ : Cursor).read.space = mark.space ∧
    ∃ after, (⟨place, text⟩ : Cursor).read.scan = .ok mark.token after rest

/-- Reading goes over these marks to what is left of a text. -/
inductive Reaches : List Char → List Mark → List Char → Prop where
  | here {text : List Char} : Reaches text [] text
  | step {text middle rest : List Char} {mark : Mark} {marks : List Mark} (takes : Takes text mark middle)
      (further : Reaches middle marks rest) : Reaches text (mark :: marks) rest

/-- Nothing but blanks and a comment. -/
def Finishes (text : List Char) : Prop := (⟨.origin, text⟩ : Cursor).skip.rest = []

instance (text : List Char) : Decidable (Finishes text) := inferInstanceAs (Decidable (_ = _))

/-- A text of these marks. -/
def Marked (text : List Char) (marks : List Mark) : Prop := ∃ rest, Reaches text marks rest ∧ Finishes rest

variable {text rest other : List Char} {mark : Mark} {marks more : List Mark}

theorem takes_of_read {cursor : Cursor} {token : Token} (scanned : cursor.read.scan.outcome = .ok token)
    (proper : token ≠ .endOfText) : Takes cursor.rest ⟨cursor.read.space, token⟩ cursor.read.scan.after.rest := by
  obtain ⟨used, _, whole, _, further⟩ := cursor.read_front scanned proper
  have same := (further _ fun _ => .refl _).2
  rw [← whole] at same
  exact ⟨proper, same⟩

/-- What is not skipped is a token, with no blanks in front of it. -/
theorem Takes.of_token {c : Char} {token : Token} (solid : Text.isBlank c = false) (code : startsComment (c :: text) = false)
    (proper : token ≠ .endOfText)
    (scanned : ∀ place, ∃ after, Cursor.token place (c :: text) = .ok token after rest) :
    Takes (c :: text) ⟨"", token⟩ rest where
  proper := proper
  reads place := by
    obtain ⟨after, scanned⟩ := scanned place
    refine ⟨?_, after, ?_⟩
    · simp [Cursor.read, Cursor.blanks, solid]
    · rw [Cursor.read, Lexes.skip_eq solid code, scanned]

/-- The marks of so many tokens, and what is left behind them. -/
def Cursor.taken : Nat → Cursor → Option (List Mark × List Char)
  | 0, cursor => some ([], cursor.rest)
  | count + 1, cursor =>
    match cursor.read.scan.outcome with
    | .ok .endOfText | .error _ => none
    | .ok token =>
      (taken count cursor.read.scan.after).map fun found => (⟨cursor.read.space, token⟩ :: found.1, found.2)

theorem reaches_of_taken {count : Nat} {cursor : Cursor} (found : cursor.taken count = some (marks, rest)) :
    Reaches cursor.rest marks rest := by
  induction count generalizing cursor marks with
  | zero =>
    cases found
    exact .here
  | succ count ih =>
    rw [Cursor.taken] at found
    split at found
    case h_1 | h_2 => cases found
    case h_3 token proper scanned =>
      obtain ⟨⟨inner, left⟩, further, whole⟩ := Option.map_eq_some_iff.mp found
      cases whole
      exact .step (takes_of_read scanned proper) (ih further)

private theorem Takes.unique {second : Mark} (takes : Takes text mark rest) (again : Takes text second other) :
    mark = second ∧ rest = other := by
  obtain ⟨space, after, scanned⟩ := takes.reads .origin
  obtain ⟨image, behind, rescanned⟩ := again.reads .origin
  obtain ⟨token, rfl⟩ : mark.token = second.token ∧ rest = other := by
    have same := scanned.symm.trans rescanned
    simp only [Scan.ok, Scan.mk.injEq, Except.ok.injEq, Cursor.mk.injEq] at same
    exact ⟨same.1, same.2.2⟩
  obtain ⟨blanks, _⟩ := mark
  obtain ⟨_, _⟩ := second
  cases token
  cases space.symm.trans image
  exact ⟨rfl, rfl⟩

theorem Takes.not_finishes (takes : Takes text mark rest) : ¬Finishes text := by
  intro finishes
  obtain ⟨_, after, scanned⟩ := takes.reads .origin
  rw [Cursor.read, finishes] at scanned
  have ended : Token.endOfText = mark.token := Except.ok.inj (congrArg Scan.outcome scanned)
  exact takes.proper ended.symm

/-- What is taken depends on what follows only as far as a word must end. -/
private theorem Takes.front (takes : Takes text mark rest) :
    ∃ used, used ≠ [] ∧ text = used ++ rest ∧ (used.getLast? = some '\n' → mark.token = .newline) ∧
      ∀ other, (mark.token.isWord = true → Akin rest other) →
        Akin text (used ++ other) ∧ Takes (used ++ other) mark other := by
  obtain ⟨space, after, scanned⟩ := takes.reads .origin
  have outcome : (⟨.origin, text⟩ : Cursor).read.scan.outcome = .ok mark.token := by rw [scanned]; rfl
  obtain ⟨used, some, whole, last, further⟩ := Cursor.read_front outcome takes.proper
  simp only [scanned, Scan.after_ok] at whole further
  refine ⟨used, some, whole, last, fun other akin => ?_⟩
  obtain ⟨near, reads⟩ := further other akin
  exact ⟨near, takes.proper, fun place => space ▸ reads place⟩

namespace Reaches

theorem append {middle : List Char} (first : Reaches text marks middle) (further : Reaches middle more rest) :
    Reaches text (marks ++ more) rest := by
  induction first with
  | here => exact further
  | step takes _ ih => exact .step takes (ih further)

/-- What is reached has the marks that are left. -/
theorem cut (reaches : Reaches text marks rest) (marked : Marked text more) :
    ∃ left, more = marks ++ left ∧ Marked rest left := by
  obtain ⟨final, whole, finishes⟩ := marked
  induction reaches generalizing more with
  | here => exact ⟨more, rfl, final, whole, finishes⟩
  | step takes _ ih =>
    cases whole with
    | here => exact absurd finishes takes.not_finishes
    | step again further =>
      obtain ⟨rfl, rfl⟩ := takes.unique again
      obtain ⟨left, rfl, marked⟩ := ih further
      exact ⟨left, rfl, marked⟩

theorem marked (reaches : Reaches text marks rest) (behind : Marked rest more) : Marked text (marks ++ more) := by
  obtain ⟨final, further, finishes⟩ := behind
  exact ⟨final, reaches.append further, finishes⟩

/-- What is reached may be exchanged for what ends a last word as well. -/
theorem front (reaches : Reaches text marks rest) :
    ∃ used, text = used ++ rest ∧ (used = [] ↔ marks = []) ∧
      (used.getLast? = some '\n' → ∀ mark ∈ marks.getLast?, mark.token = .newline) ∧
      ∀ other, (∀ mark ∈ marks.getLast?, mark.token.isWord = true → Akin rest other) →
        (marks ≠ [] → Akin text (used ++ other)) ∧ Reaches (used ++ other) marks other := by
  induction reaches with
  | here => exact ⟨[], by simp, by simp, by simp, fun other _ => ⟨nofun, .here⟩⟩
  | @step text middle rest mark marks takes further ih =>
    obtain ⟨first, some, whole, last, near⟩ := takes.front
    obtain ⟨behind, rfl, empty, ends, others⟩ := ih
    refine ⟨first ++ behind, by rw [List.append_assoc]; exact whole, by simp [some], ?_, fun other akin => ?_⟩
    · intro newline found member
      cases marks with
      | nil =>
        obtain rfl := empty.mpr rfl
        obtain rfl : mark = found := by simpa using member
        exact last (by simpa using newline)
      | cons next marks =>
        have some : behind ≠ [] := fun none => by cases empty.mp none
        refine ends ?_ found (by simpa using member)
        rw [List.getLast?_append] at newline
        cases final : behind.getLast? with
        | none => exact absurd (List.getLast?_eq_none_iff.mp final) some
        | some c => simpa [final] using newline
    · cases marks with
      | nil =>
        obtain rfl := empty.mpr rfl
        cases further
        obtain ⟨alike, read⟩ := near other (akin mark rfl)
        rw [List.append_nil]
        exact ⟨fun _ => alike, .step read .here⟩
      | cons next marks =>
        obtain ⟨alike, read⟩ := others other fun found member => akin found (by simpa using member)
        obtain ⟨whole, start⟩ := near (behind ++ other) fun _ => alike (List.cons_ne_nil _ _)
        rw [List.append_assoc]
        exact ⟨fun _ => whole, .step start read⟩

private theorem read (reaches : Reaches text marks rest) (place : Position) :
    ∃ front after, front.map Lexeme.mark = marks ∧ ∀ stream, Stream.read ⟨after, rest⟩ = .ok stream →
      Stream.read ⟨place, text⟩ = .ok (.prepend front stream) := by
  induction reaches generalizing place with
  | here => exact ⟨[], place, rfl, fun stream read => read⟩
  | @step text middle rest mark marks takes further ih =>
    obtain ⟨space, between, scanned⟩ := takes.reads place
    obtain ⟨front, after, rfl, others⟩ := ih between
    refine ⟨⟨mark.space, (⟨place, text⟩ : Cursor).read.start, mark.token⟩ :: front, after, rfl, ?_⟩
    intro stream read
    have whole := Stream.read_more scanned takes.proper (others stream read)
    rwa [space] at whole

end Reaches

theorem Finishes.no_newline (finishes : Finishes text) : '\n' ∉ text := by
  have whole := Cursor.comment_append (text.dropWhile Text.isBlank)
  have rest : (text.dropWhile Text.isBlank).drop (comment (text.dropWhile Text.isBlank)).length = [] := finishes
  rw [rest, List.append_nil] at whole
  rw [← List.takeWhile_append_dropWhile (p := Text.isBlank) (l := text), ← whole]
  intro member
  rcases List.mem_append.mp member with blank | remark
  · exact Text.isBlank_ne_newline (List.mem_takeWhile_imp blank) rfl
  · unfold comment at remark
    split at remark
    · simpa using List.mem_takeWhile_imp (p := (· != '\n')) remark
    · cases remark

private theorem Finishes.read (finishes : Finishes text) (place : Position) :
    ∃ last, last.token = .endOfText ∧ Stream.read ⟨place, text⟩ = .ok (.ended last) := by
  have rest : (⟨place, text⟩ : Cursor).skip.rest = [] := finishes
  have scanned : (⟨place, text⟩ : Cursor).read.scan.outcome = .ok .endOfText := by
    rw [Cursor.read, rest]
    rfl
  exact ⟨_, rfl, by rw [Stream.read_eq, scanned]⟩

theorem Cursor.nil_of_endOfText {place : Position} (scanned : (token place text).outcome = .ok .endOfText) :
    text = [] := by
  unfold token at scanned
  split at scanned
  case h_1 => rfl
  case h_2 => cases scanned
  case h_3 =>
    unfold Scan.reference at scanned
    split at scanned
    · obtain ⟨path, _, other⟩ := Scan.ok_of_map scanned
      cases other
    · obtain ⟨path, _, other⟩ := Scan.ok_of_map scanned
      cases other
    · cases scanned
  case h_4 =>
    obtain ⟨content, _, other⟩ := Scan.ok_of_map scanned
    cases other
  case h_5 =>
    obtain ⟨content, _, other⟩ := Scan.ok_of_map scanned
    cases other
  case h_6 c rest _ _ _ _ =>
    split at scanned
    case h_1 symbol known =>
      obtain rfl : symbol = .endOfText := Except.ok.inj scanned
      unfold symbol? at known
      split at known <;> cases known
    case h_2 => split at scanned <;> cases scanned

/-- A text that is read to its end without a fault is one of its marks. -/
theorem marked_of_read {cursor : Cursor} {front : List Lexeme} {last : Lexeme}
    (read : Stream.read cursor = .ok (.prepend front (.ended last))) :
    Marked cursor.rest (front.map Lexeme.mark) := by
  induction front generalizing cursor with
  | nil =>
    obtain ⟨scanned, _⟩ := Stream.scan_of_ended read
    have finishes : Finishes cursor.rest := Cursor.nil_of_endOfText scanned
    exact ⟨cursor.rest, .here, finishes⟩
  | cons lexeme front ih =>
    obtain ⟨scanned, proper, whole, further⟩ := Stream.scan_of_more read
    obtain ⟨rest, reaches, finishes⟩ := ih further
    rw [List.map_cons, whole]
    exact ⟨rest, .step (takes_of_read scanned proper) reaches, finishes⟩

/-- A text of these marks is read as they tell. -/
theorem Marked.read (marked : Marked text marks) (place : Position) :
    ∃ front last, front.map Lexeme.mark = marks ∧ last.token = .endOfText ∧
      Stream.read ⟨place, text⟩ = .ok (.prepend front (.ended last)) := by
  obtain ⟨rest, reaches, finishes⟩ := marked
  obtain ⟨front, after, same, others⟩ := reaches.read place
  obtain ⟨last, ends, read⟩ := finishes.read after
  exact ⟨front, last, same, ends, others _ read⟩

/-- A text that ends with a newline ends with that mark, and any other may follow it. -/
theorem Marked.followed (marked : Marked text marks) (ends : text.getLast? = some '\n') :
    (∀ mark ∈ marks.getLast?, mark.token = .newline) ∧ ∀ other, Reaches (text ++ other) marks other := by
  obtain ⟨rest, reaches, finishes⟩ := marked
  obtain ⟨used, rfl, _, last, others⟩ := reaches.front
  obtain rfl : rest = [] := by
    by_contra left
    have newline : rest.getLast? = some '\n' := by
      rw [List.getLast?_append] at ends
      cases final : rest.getLast? with
      | none => exact absurd (List.getLast?_eq_none_iff.mp final) left
      | some c => simpa [final] using ends
    exact finishes.no_newline (List.mem_of_getLast? newline)
  have newline := last (by simpa using ends)
  refine ⟨newline, fun other => ?_⟩
  rw [List.append_nil]
  refine (others other fun mark member word => ?_).2
  rw [newline mark member] at word
  cases word

end Hocon
