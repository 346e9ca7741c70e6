import Hocon.Proofs.Grammar.Token
import Hocon.Proofs.Pointing
import Hocon.Proofs.Trivia
import Mathlib.Data.Nat.Find

namespace Hocon

private theorem Reading.isEnd_iff {reading : Reading} :
    reading.isEnd = true ↔ reading.scan.outcome = .ok .endOfText := by
  unfold isEnd
  split
  case h_1 ended => simp [ended]
  case h_2 going => simpa using going

namespace Cursor

open Grammar (Inscribes question solid spelled)

variable {cursor : Cursor}

private theorem read_isEnd_iff (cursor : Cursor) : cursor.read.isEnd = true ↔ cursor.skip.rest = [] := by
  rw [Reading.isEnd_iff]
  constructor
  · exact nil_of_endOfText
  · intro done
    rw [read, done]
    rfl

/-- Behind the end nothing is left. -/
theorem rest_of_isEnd (ended : cursor.read.isEnd = true) : cursor.read.after.rest = [] := by
  rw [read, (read_isEnd_iff cursor).mp ended]
  rfl

private theorem isEnd_after (ended : cursor.read.isEnd = true) : cursor.read.after.read.isEnd = true := by
  have shorter := skip_rest_le cursor.read.after
  rw [rest_of_isEnd ended] at shorter
  exact (read_isEnd_iff _).mpr (List.length_eq_zero_iff.mp (Nat.le_zero.mp shorter))

private theorem takes_of_going (going : cursor.read.isEnd = false) :
    ∃ c run, cursor.rest = cursor.blanks ++ cursor.remark ++ c :: run ++ cursor.read.after.rest := by
  obtain ⟨used, covers, _, split⟩ := cursor.read_covers
  cases used with
  | cons c run => exact ⟨c, run, covers.whole⟩
  | nil =>
    have more : cursor.skip.rest ≠ [] := by simpa [going] using (read_isEnd_iff cursor).not
    have shorter : cursor.read.scan.after.rest.length < cursor.skip.rest.length :=
      token_shorter _ _ more cursor.startsComment_skip
    rw [split] at shorter
    exact absurd shorter (Nat.lt_irrefl _)

/-- What the first so many calls meet, tokens and faults. -/
def readings (cursor : Cursor) (calls : Nat) : List Reading :=
  (List.range calls).map fun call => (cursor.afterCalls call).read

theorem afterCalls_succ (cursor : Cursor) (calls : Nat) :
    cursor.afterCalls (calls + 1) = cursor.read.after.afterCalls calls := by
  induction calls with
  | zero => rfl
  | succ calls ih => exact congrArg (fun behind => behind.read.after) ih

theorem readings_succ (cursor : Cursor) (calls : Nat) :
    cursor.readings (calls + 1) = cursor.read :: cursor.read.after.readings calls := by
  simp only [readings, List.range_succ_eq_map, List.map_cons, List.map_map]
  exact congrArg (cursor.read :: ·) (List.map_congr_left fun call _ => congrArg read (cursor.afterCalls_succ call))

private theorem afterCalls_length {calls : Nat}
    (going : ∀ call < calls, (cursor.afterCalls call).read.isEnd = false) :
    (cursor.afterCalls calls).rest.length + calls ≤ cursor.rest.length := by
  induction calls with
  | zero => exact Nat.le_refl _
  | succ calls ih =>
    have before := ih fun call earlier => going call (Nat.lt_succ_of_lt earlier)
    have shorter : (cursor.afterCalls (calls + 1)).rest.length < (cursor.afterCalls calls).rest.length :=
      read_shorter _ (going calls (Nat.lt_succ_self calls))
    omega

/-- Some call meets the end, as there are no more characters to take. -/
private theorem exists_isEnd (cursor : Cursor) :
    ∃ call ≤ cursor.rest.length, (cursor.afterCalls call).read.isEnd = true := by
  by_contra never
  have going : ∀ call < cursor.rest.length + 1, (cursor.afterCalls call).read.isEnd = false := by
    intro call earlier
    by_contra ended
    exact never ⟨call, Nat.le_of_lt_succ earlier, by simpa using ended⟩
  have length := afterCalls_length going
  omega

private theorem isEnd_of_le {first calls : Nat} (ended : (cursor.afterCalls first).read.isEnd = true)
    (later : first ≤ calls) :
    (cursor.afterCalls calls).read.isEnd = true := by
  induction later with
  | refl => exact ended
  | step _ ih => exact isEnd_after ih

/-- There is a first call that meets the end, and from there on every call does. -/
theorem exists_last (cursor : Cursor) :
    ∃ last ≤ cursor.rest.length, ∀ calls, (cursor.afterCalls calls).read.isEnd = true ↔ last ≤ calls := by
  have met := exists_isEnd cursor
  obtain ⟨within, ended⟩ := Nat.find_spec met
  refine ⟨Nat.find met, within, fun calls => ⟨fun finished => ?_, isEnd_of_le ended⟩⟩
  by_contra earlier
  have earlier := Nat.lt_of_not_le earlier
  exact Nat.find_min met earlier ⟨Nat.le_of_lt (Nat.lt_of_lt_of_le earlier within), finished⟩

/-- Reading to the end is calling as often as that takes. -/
theorem readAll_eq_readings {last : Nat}
    (ends : ∀ calls, (cursor.afterCalls calls).read.isEnd = true ↔ last ≤ calls) :
    cursor.readAll = cursor.readings (last + 1) := by
  induction last generalizing cursor with
  | zero =>
    have ended := (ends 0).mpr (Nat.le_refl 0)
    rw [readAll]
    split
    case h_1 => rfl
    case h_2 going => cases ended.symm.trans going
  | succ last ih =>
    have going := (ends 0).not.mpr (Nat.not_succ_le_zero last)
    have behind : ∀ calls, (cursor.read.after.afterCalls calls).read.isEnd = true ↔ last ≤ calls := by
      intro calls
      rw [← afterCalls_succ, ends, Nat.succ_le_succ_iff]
    rw [readAll, readings_succ, ← ih behind]
    split
    case h_1 ended => exact absurd ended going
    case h_2 => rfl

/-- A token is read from characters that write it, behind what is skipped. -/
theorem written_of_read {token : Token} (scanned : cursor.read.scan.outcome = .ok token) :
    ∃ span, cursor.skip.rest = span ++ cursor.read.after.rest ∧ token.Written span :=
  written_of_token cursor.startsComment_skip scanned

private theorem word_of_read {letters : String} (scanned : cursor.read.scan.outcome = .ok (.unquoted letters)) :
    letters ≠ "" ∧ (∀ c ∈ letters.toList, isForbidden c = false) ∧ ¬['/', '/'] <:+: letters.toList ∧
      word cursor.skip.rest = (letters.toList, cursor.read.after.rest) := by
  obtain ⟨span, split, written⟩ := written_of_read scanned
  obtain ⟨rfl, some, plain, code⟩ := written.of_unquoted
  refine ⟨by simpa using some, plain, code, ?_⟩
  -- its first letter is no token by itself, so the word is read from there on
  obtain ⟨c, more, first⟩ := List.exists_cons_of_ne_nil some
  have letter : isForbidden c = false := plain c (first ▸ List.mem_cons_self)
  rw [first, List.cons_append] at split
  have whole := Lexes.token_of_letter letter cursor.skip.place (more ++ cursor.read.after.rest)
  rw [← split] at whole
  have same : letters = String.ofList (word cursor.skip.rest).1 := by
    have outcome := congrArg Scan.outcome whole
    cases scanned.symm.trans outcome
    rfl
  have behind : cursor.read.after.rest = (word cursor.skip.rest).2 := congrArg (·.after.rest) whole
  rw [same, String.toList_ofList, behind]

/-- Reading a text advances. Calls that go on behind faults meet the end after as many calls as the text
has characters at most, and from then on at every call, since each call before takes a character behind
the blanks and the comment that it skips. A word takes all the letters that there are, one at least,
without two slashes in a row; a reference names a path in which every empty segment stood in quotes. -/
theorem calls_advance (text : String) :
    (∃ last ≤ text.length, (ofText text).readAll = (ofText text).readings (last + 1) ∧
      ∀ calls, ((ofText text).afterCalls calls).read.isEnd = true ↔ last ≤ calls) ∧
    ∀ calls,
      let cursor := (ofText text).afterCalls calls
      (cursor.read.isEnd = false →
        ∃ c run, cursor.rest = cursor.blanks ++ cursor.remark ++ c :: run ++ cursor.read.after.rest) ∧
      (∀ letters, cursor.read.scan.outcome = .ok (.unquoted letters) →
        letters ≠ "" ∧ (∀ c ∈ letters.toList, isForbidden c = false) ∧ ¬['/', '/'] <:+: letters.toList ∧
          word cursor.skip.rest = (letters.toList, cursor.read.after.rest)) ∧
      ∀ path optional, cursor.read.scan.outcome = .ok (.reference path optional) →
        path.toList ≠ [] ∧ ∃ inside atoms, Inscribes inside atoms ∧
          cursor.skip.rest = '$' :: '\x7b' :: (question optional ++ inside ++ '\x7d' :: cursor.read.after.rest) ∧
          List.Forall₂ (fun name segment => name = spelled (solid segment) ∧ (name = "" → .quoted "" ∈ segment))
            path.toList (atoms.splitOn (.bare '.')) := by
  constructor
  · obtain ⟨last, within, ends⟩ := exists_last (ofText text)
    exact ⟨last, within, readAll_eq_readings ends, ends⟩
  intro calls cursor
  refine ⟨takes_of_going, fun letters => word_of_read, fun path optional scanned => ⟨?_, ?_⟩⟩
  · exact List.cons_ne_nil _ _
  · obtain ⟨span, split, written⟩ := written_of_read scanned
    obtain ⟨inside, atoms, inscribes, rfl, segments⟩ := written.of_reference
    exact ⟨inside, atoms, inscribes, by simpa using split, segments⟩

/-- Behind a fault a word is read as far as a comment, and in the next line a reference with a segment
that only quotes show. -/
theorem calls_advance_behind_fault :
    let text := "$a/b//c\n$\x7b?\"\".d\x7d"
    let second := (ofText text).afterCalls 1
    let fourth := (ofText text).afterCalls 3
    (second.read.isEnd = false ∧ ∃ c run, second.rest = second.blanks ++ second.remark ++ c :: run ++
        second.read.after.rest) ∧
      (second.read.scan.outcome = .ok (.unquoted "a/b") ∧ "a/b" ≠ "" ∧
        (∀ c ∈ "a/b".toList, isForbidden c = false) ∧ ¬['/', '/'] <:+: "a/b".toList ∧
        word second.skip.rest = ("a/b".toList, second.read.after.rest)) ∧
      fourth.read.scan.outcome = .ok (.reference ⟨"", ["d"]⟩ true) ∧
        (⟨"", ["d"]⟩ : KeyPath).toList ≠ [] ∧ ∃ inside atoms, Inscribes inside atoms ∧
          fourth.skip.rest = '$' :: '\x7b' :: (question true ++ inside ++ '\x7d' :: fourth.read.after.rest) ∧
          List.Forall₂ (fun name segment => name = spelled (solid segment) ∧ (name = "" → .quoted "" ∈ segment))
            (⟨"", ["d"]⟩ : KeyPath).toList (atoms.splitOn (.bare '.')) := by
  intro text second fourth
  obtain ⟨takes, words, _⟩ := (calls_advance text).2 1
  obtain ⟨_, _, references⟩ := (calls_advance text).2 3
  have going : second.read.isEnd = false := by decide +kernel
  have letters : second.read.scan.outcome = .ok (.unquoted "a/b") := by decide +kernel
  have named : fourth.read.scan.outcome = .ok (.reference ⟨"", ["d"]⟩ true) := by decide +kernel
  exact ⟨⟨going, takes going⟩, ⟨letters, words _ letters⟩, named, references _ _ named⟩

end Cursor
end Hocon
