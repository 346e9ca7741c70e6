import Hocon.Proofs.Scanning
import Mathlib.Data.List.Induction

namespace Hocon

namespace Position

/-- An earlier line, or further left in the same one. -/
def Before (first second : Position) : Prop :=
  first.line < second.line ∨ first.line = second.line ∧ first.column < second.column

private theorem Before.trans {first second third : Position} (before : first.Before second)
    (behind : second.Before third) :
    first.Before third := by
  unfold Before at before behind ⊢
  omega

private theorem before_after (place : Position) (c : Char) : place.Before (place.after c) := by
  unfold after Before
  split <;> simp

private theorem before_past (place : Position) {used : List Char} (some : used ≠ []) :
    place.Before (place.past used) := by
  induction used generalizing place with
  | nil => exact absurd rfl some
  | cons c used ih =>
    cases used with
    | nil => exact place.before_after c
    | cons d used => exact (place.before_after c).trans (ih (place.after c) (List.cons_ne_nil d used))

private theorem before_ahead {first second : Position} (before : first.Before second) :
    first.ahead.Before second.ahead := by
  unfold Before ahead at *
  simp only
  omega

/-- The line and the column of what stands behind these characters, both counted from one. -/
def behind (before : List Char) : Position :=
  ⟨before.count '\n' + 1, (before.reverse.takeWhile (· != '\n')).length + 1⟩

theorem ahead_past_origin (before : List Char) : (origin.past before).ahead = behind before := by
  induction before using List.reverseRecOn with
  | nil => rfl
  | append_singleton before c ih =>
    obtain ⟨line, column⟩ := Position.mk.inj ih
    rw [past_append, past_cons, past_nil, after]
    by_cases newline : c = '\n'
    · subst newline
      simp only [ahead, behind, if_true, List.count_append, List.reverse_append, line]
      simp
    · simp only [ahead, behind, if_neg newline, List.count_append, List.reverse_append, line, column]
      simp [newline]

example : behind ['a', '\n', 'b'] = ⟨2, 2⟩ := by decide

end Position

namespace Scan

variable {α β : Type}

/-- The scan of a text at a place went over these characters, and knows the place behind them. -/
structure Covers (scan : Scan α) (place : Position) (text used : List Char) : Prop where
  whole : text = used ++ scan.after.rest
  place : scan.after.place = place.past used

namespace Covers

variable {scan : Scan α} {place : Position} {text used : List Char}

private theorem none {outcome : Except Fault α} : Covers ⟨outcome, ⟨place, text⟩⟩ place text [] := ⟨rfl, rfl⟩

private theorem single {outcome : Except Fault α} {c : Char} :
    Covers ⟨outcome, ⟨place.after c, text⟩⟩ place (c :: text) [c] := ⟨rfl, rfl⟩

private theorem cons {c : Char} (covers : scan.Covers (place.after c) text used) :
    scan.Covers place (c :: text) (c :: used) := ⟨congrArg (c :: ·) covers.whole, covers.place⟩

private theorem map {f : α → β} (covers : scan.Covers place text used) : (scan.map f).Covers place text used :=
  ⟨covers.whole, covers.place⟩

private theorem append {first : Scan β} {front : List Char} (before : first.Covers place text front)
    (behind : scan.Covers first.after.place first.after.rest used) : scan.Covers place text (front ++ used) where
  whole := by rw [List.append_assoc, ← behind.whole, ← before.whole]
  place := by rw [behind.place, before.place, Position.past_append]

/-- Only what was gone over counts, not the outcome. -/
private theorem instead {outcome : Except Fault β} (covers : scan.Covers place text used) :
    Covers ⟨outcome, scan.after⟩ place text used := ⟨covers.whole, covers.place⟩

end Covers

private theorem codePoint_covers (seen : List Char) (value : Nat) (place : Position) (missing : Nat)
    (text : List Char) :
    ∃ used, (codePoint seen value place missing text).Covers place text used := by
  fun_induction codePoint seen value place missing text with
  | case4 seen value place missing c rest digit known ih =>
    obtain ⟨used, covers⟩ := ih
    exact ⟨c :: used, covers.cons⟩
  | case5 => exact ⟨_, .single⟩
  | _ => exact ⟨[], .none⟩

theorem escape_covers (place : Position) (text : List Char) : ∃ used, (escape place text).Covers place text used := by
  cases text with
  | nil => exact ⟨[], .none⟩
  | cons c rest =>
    rw [escape]
    split
    · obtain ⟨used, covers⟩ := codePoint_covers [] 0 (place.after c) 4 rest
      exact ⟨c :: used, covers.cons⟩
    · split <;> exact ⟨[c], .single⟩

theorem quoted_covers (opened place : Position) (text : List Char) :
    ∃ used, (quoted opened place text).Covers place text used := by
  fun_induction quoted opened place text with
  | case1 => exact ⟨[], .none⟩
  | case2 => exact ⟨_, .single⟩
  | case3 => exact ⟨_, .single⟩
  | case4 place rest decoded next _ _ known ih =>
    obtain ⟨front, escaped⟩ := escape_covers next rest
    obtain ⟨used, covers⟩ := ih
    exact ⟨_, (escaped.append covers).map.cons⟩
  | case5 place rest fault next =>
    obtain ⟨front, escaped⟩ := escape_covers next rest
    exact ⟨_, escaped.instead.cons⟩
  | case6 place c rest next _ _ _ ih =>
    obtain ⟨used, covers⟩ := ih
    exact ⟨_, covers.map.cons⟩

private theorem tripleQuoted_covers (opened place : Position) (text : List Char) :
    ∃ used, (tripleQuoted opened place text).Covers place text used := by
  fun_induction tripleQuoted opened place text with
  | case1 => exact ⟨[], .none⟩
  | case2 place rest =>
    refine ⟨'"' :: '"' :: '"' :: rest.takeWhile (· == '"'), ?_, rfl⟩
    simp [List.takeWhile_append_dropWhile]
  | case3 place c rest _ ih =>
    obtain ⟨used, covers⟩ := ih
    exact ⟨_, covers.map.cons⟩

private theorem referencePath_covers (start : Position) (builder : KeyPath.Builder) (place : Position)
    (text : List Char) :
    ∃ used, (referencePath start builder place text).Covers place text used := by
  fun_induction referencePath start builder place text with
  | case1 => exact ⟨[], .none⟩
  | case4 builder place rest content next _ _ ih =>
    obtain ⟨front, inside⟩ := quoted_covers place.ahead next rest
    obtain ⟨used, covers⟩ := ih
    exact ⟨_, (inside.append covers).cons⟩
  | case5 builder place rest fault next =>
    obtain ⟨front, inside⟩ := quoted_covers place.ahead next rest
    exact ⟨_, inside.instead.cons⟩
  | case6 builder place rest longer _ next _ _ ih =>
    obtain ⟨used, covers⟩ := ih
    exact ⟨_, covers.cons⟩
  | case8 builder place c rest next _ _ _ _ ih =>
    obtain ⟨used, covers⟩ := ih
    exact ⟨_, covers.cons⟩
  | case9 => exact ⟨[], .none⟩
  | case11 builder place c rest next _ _ _ _ _ _ ih =>
    obtain ⟨used, covers⟩ := ih
    exact ⟨_, covers.cons⟩
  | _ => exact ⟨_, .single⟩

private theorem reference_covers (start place : Position) (text : List Char) :
    ∃ used, (reference start place text).Covers place text used := by
  unfold reference
  split
  · rename_i rest
    obtain ⟨used, covers⟩ := referencePath_covers start .empty ((place.after '\x7b').after '?') rest
    exact ⟨_, covers.map.cons.cons⟩
  · rename_i rest _
    obtain ⟨used, covers⟩ := referencePath_covers start .empty (place.after '\x7b') rest
    exact ⟨_, covers.map.cons⟩
  · exact ⟨[], .none⟩

end Scan

namespace Cursor

theorem token_covers (place : Position) (text : List Char) : ∃ used, (token place text).Covers place text used := by
  unfold token
  split
  · exact ⟨[], .none⟩
  · exact ⟨['+', '='], rfl, rfl⟩
  · rename_i rest
    obtain ⟨used, covers⟩ := Scan.reference_covers place.ahead (place.after '$') rest
    exact ⟨_, covers.cons⟩
  · rename_i rest
    obtain ⟨used, covers⟩ := Scan.tripleQuoted_covers place.ahead (place.past ['"', '"', '"']) rest
    exact ⟨_, covers.map.cons.cons.cons⟩
  · rename_i rest _
    obtain ⟨used, covers⟩ := Scan.quoted_covers place.ahead (place.after '"') rest
    exact ⟨_, covers.map.cons⟩
  · rename_i c rest _ _ _ _
    split
    · exact ⟨[c], .single⟩
    · split
      · exact ⟨[c], .single⟩
      · exact ⟨(word (c :: rest)).1, (word_append (c :: rest)).symm, rfl⟩

/-- What is skipped in front of a token, and the token. -/
theorem skip_append (cursor : Cursor) : cursor.rest = cursor.blanks ++ cursor.remark ++ cursor.skip.rest := by
  have behind : cursor.remark ++ cursor.skip.rest = cursor.rest.dropWhile Text.isBlank := comment_append _
  rw [List.append_assoc, behind]
  exact List.takeWhile_append_dropWhile.symm

/-- One step of reading knows the place behind what it went over, and where its token began. -/
theorem read_covers (cursor : Cursor) : ∃ used,
    cursor.read.scan.Covers cursor.place cursor.rest (cursor.blanks ++ cursor.remark ++ used) ∧
      cursor.read.start = (cursor.place.past (cursor.blanks ++ cursor.remark)).ahead ∧
      cursor.skip.rest = used ++ cursor.read.scan.after.rest := by
  obtain ⟨used, covers⟩ := token_covers cursor.skip.place cursor.skip.rest
  refine ⟨used, ⟨?_, ?_⟩, rfl, covers.whole⟩
  · calc cursor.rest
        = cursor.blanks ++ cursor.remark ++ cursor.skip.rest := cursor.skip_append
      _ = cursor.blanks ++ cursor.remark ++ used ++ cursor.read.scan.after.rest := by
        rw [List.append_assoc _ used]
        exact congrArg _ covers.whole
  · rw [Position.past_append]
    exact covers.place

end Cursor

/-- The lexeme is read behind some characters of a text from there on, and says the place of its first one. -/
def Lexeme.Stands (lexeme : Lexeme) (place : Position) (text : List Char) : Prop :=
  ∃ before rest, text = before ++ rest ∧ lexeme.start = (place.past before).ahead ∧
    (Cursor.token (place.past before) rest).outcome = .ok lexeme.token

namespace Lexeme.Stands

variable {lexeme : Lexeme} {place : Position} {front text : List Char}

private theorem behind (stands : lexeme.Stands (place.past front) text) :
    lexeme.Stands place (front ++ text) := by
  obtain ⟨before, rest, rfl, start, scanned⟩ := stands
  rw [← Position.past_append] at start scanned
  exact ⟨front ++ before, rest, (List.append_assoc front before rest).symm, start, scanned⟩

private theorem of_read {cursor : Cursor} {token : Token} (scanned : cursor.read.scan.outcome = .ok token) :
    Stands ⟨cursor.read.space, cursor.read.start, token⟩ cursor.place cursor.rest :=
  ⟨cursor.blanks ++ cursor.remark, cursor.skip.rest, cursor.skip_append, rfl, scanned⟩

end Lexeme.Stands

/-- Every lexeme stands where it says, each behind the one before. -/
theorem Stream.stands_of_read {front : List Lexeme} {last : Lexeme} {cursor : Cursor}
    (read : Stream.read cursor = .ok (.prepend front (.ended last))) :
    (∀ lexeme ∈ front ++ [last], lexeme.Stands cursor.place cursor.rest) ∧
      (front ++ [last]).Pairwise fun lexeme next => lexeme.start.Before next.start := by
  induction front generalizing cursor with
  | nil =>
    obtain ⟨scanned, rfl⟩ := scan_of_ended read
    exact ⟨by simpa using Lexeme.Stands.of_read scanned, List.pairwise_singleton _ _⟩
  | cons lexeme front ih =>
    obtain ⟨scanned, proper, whole, further⟩ := scan_of_more read
    obtain ⟨stands, ascending⟩ := ih further
    obtain ⟨used, covers, start, split⟩ := cursor.read_covers
    have more : cursor.skip.rest ≠ [] := by
      intro none
      rw [Cursor.read, none] at scanned
      exact proper (Except.ok.inj scanned).symm
    have some : used ≠ [] := by
      rintro rfl
      have shorter : cursor.read.scan.after.rest.length < cursor.skip.rest.length :=
        Cursor.token_shorter cursor.skip.place _ more cursor.startsComment_skip
      rw [split] at shorter
      exact Nat.lt_irrefl _ shorter
    have behind : ∀ next ∈ front ++ [last], next.Stands (cursor.place.past (cursor.blanks ++ cursor.remark ++ used))
        cursor.read.scan.after.rest := covers.place ▸ stands
    constructor
    · refine List.forall_mem_cons.mpr ⟨whole ▸ .of_read scanned, fun next member => ?_⟩
      rw [covers.whole]
      exact (behind next member).behind
    · refine List.pairwise_cons.mpr ⟨fun next member => ?_, ascending⟩
      obtain ⟨before, _, _, there, _⟩ := behind next member
      rw [whole, start, there, ← Position.past_append, List.append_assoc, Position.past_append _ _ (used ++ before)]
      exact Position.before_ahead (Position.before_past _ (List.append_ne_nil_of_left_ne_nil some before))

end Hocon
