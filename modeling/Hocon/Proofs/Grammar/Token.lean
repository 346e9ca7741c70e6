import Hocon.Proofs.Quoting

namespace Hocon

open Grammar (Inscribes question solid spelled)

namespace Grammar

/-- Where a segment has nothing in it to be seen, quotes stand there. -/
private theorem quoted_of_spelled {segment : List Atom} (kept : solid segment ≠ [])
    (empty : spelled (solid segment) = "") :
    .quoted "" ∈ segment := by
  obtain ⟨atom, more, whole⟩ := List.exists_cons_of_ne_nil kept
  have member : atom ∈ segment := List.filter_sublist.mem (whole ▸ List.mem_cons_self : atom ∈ solid segment)
  have nothing : atom.content = [] := by
    have none : (solid segment).flatMap Atom.content = [] := by simpa [spelled] using empty
    rw [whole] at none
    exact (List.append_eq_nil_iff.mp none).1
  cases atom with
  | bare c => cases nothing
  | quoted text =>
    obtain rfl : text = "" := String.toList_inj.mp nothing
    exact member

end Grammar

/-- A token, and the characters that write it. -/
inductive Token.Written : Token → List Char → Prop where
  | word {letters : List Char} (some : letters ≠ []) (plain : ∀ c ∈ letters, isForbidden c = false)
      (code : ¬['/', '/'] <:+: letters) : Written (.unquoted (String.ofList letters)) letters
  | quoted {inside content : List Char} (decodes : Scan.Decodes inside content) :
      Written (.quoted (String.ofList content)) ('"' :: (inside ++ ['"']))
  | tripleQuoted {content : List Char} (last : Scan.ClosesLast content) :
      Written (.quoted (String.ofList content)) ('"' :: '"' :: '"' :: (content ++ ['"', '"', '"']))
  | reference {text : List Char} {atoms : List Grammar.Atom} {path : KeyPath} (optional : Bool)
      (inscribes : Inscribes text atoms) (proper : ∀ segment ∈ atoms.splitOn (.bare '.'), solid segment ≠ [])
      (named : path.toList = (atoms.splitOn (.bare '.')).map (spelled ∘ solid)) :
      Written (.reference path optional) ('$' :: '\x7b' :: (question optional ++ text ++ ['\x7d']))
  | symbol {c : Char} {token : Token} (known : Cursor.symbol? c = some token) : Written token [c]
  | plusEquals : Written .plusEquals ['+', '=']
  | endOfText : Written .endOfText []

/-- Letters that make a word are the word. -/
theorem Token.Written.of_unquoted {letters : String} {span : List Char} (written : Written (.unquoted letters) span) :
    letters.toList = span ∧ span ≠ [] ∧ (∀ c ∈ span, isForbidden c = false) ∧ ¬['/', '/'] <:+: span := by
  cases written with
  | word some plain code => exact ⟨String.toList_ofList, some, plain, code⟩
  | symbol known =>
    unfold Cursor.symbol? at known
    split at known <;> cases known

/-- A segment of a reference stood there, if only as quotes with nothing between them. -/
theorem Token.Written.of_reference {path : KeyPath} {optional : Bool} {span : List Char}
    (written : Written (.reference path optional) span) :
    ∃ text atoms, Inscribes text atoms ∧ span = '$' :: '\x7b' :: (question optional ++ text ++ ['\x7d']) ∧
      List.Forall₂ (fun name segment => name = spelled (solid segment) ∧ (name = "" → .quoted "" ∈ segment))
        path.toList (atoms.splitOn (.bare '.')) := by
  cases written with
  | reference _ inscribes proper named =>
    refine ⟨_, _, inscribes, rfl, ?_⟩
    rw [named, List.forall₂_map_left_iff, List.forall₂_same]
    exact fun segment member => ⟨rfl, Grammar.quoted_of_spelled (proper segment member)⟩
  | symbol known =>
    unfold Cursor.symbol? at known
    split at known <;> cases known

namespace Scan

variable {text content : List Char} {opened place : Position}

private theorem closesLast_of_tripleQuoted (scanned : (tripleQuoted opened place text).outcome = .ok content) :
    text = content ++ '"' :: '"' :: '"' :: (tripleQuoted opened place text).after.rest ∧ ClosesLast content := by
  fun_induction tripleQuoted opened place text generalizing content
  case case1 => cases scanned
  case case2 place rest =>
    cases scanned
    have quotes : ∀ c ∈ rest.takeWhile (· == '"'), c = '"' := fun c member => by
      simpa using List.mem_takeWhile_imp member
    refine ⟨?_, fun before behind whole c member => quotes c ?_⟩
    · rw [append_quotes quotes, after_ok, List.takeWhile_append_dropWhile]
    · rw [whole]
      simp [member]
  case case3 place c rest going ih =>
    obtain ⟨inside, inner, rfl⟩ := ok_of_map scanned
    obtain ⟨whole, last⟩ := ih inner
    refine ⟨congrArg (c :: ·) whole, fun before behind cut => ?_⟩
    cases before with
    | nil =>
      -- the first three quotes in a row would have closed the text
      obtain ⟨rfl, rfl⟩ := List.cons.inj cut
      exact (going _ rfl whole).elim
    | cons first before => exact last before behind (List.cons.inj cut).2

end Scan

private theorem word_code (text : List Char) : ¬['/', '/'] <:+: (word text).1 := by
  induction text with
  | nil => simp [word]
  | cons c rest ih =>
    rw [word]
    split
    case isTrue => simp
    case isFalse going =>
      rw [List.infix_cons_iff, not_or]
      refine ⟨fun front => ?_, ih⟩
      obtain ⟨rfl, behind⟩ := List.cons_prefix_cons.mp front
      obtain ⟨more, letters⟩ := behind
      refine going ?_
      rw [← word_append rest, ← letters]
      rfl

namespace Cursor

variable {place : Position} {text : List Char} {c : Char} {found : Token}

/-- A token is read from characters that write it. -/
theorem written_of_token (code : startsComment text = false) (scanned : (token place text).outcome = .ok found) :
    ∃ span, text = span ++ (token place text).after.rest ∧ found.Written span := by
  generalize whole : token place text = scan at scanned ⊢
  unfold token at whole
  split at whole
  case h_1 =>
    subst whole
    cases scanned
    exact ⟨[], rfl, .endOfText⟩
  case h_2 rest =>
    subst whole
    cases scanned
    exact ⟨['+', '='], rfl, .plusEquals⟩
  case h_3 rest =>
    subst whole
    obtain ⟨path, optional, content, atoms, rfl, inscribes, made, same⟩ := Grammar.inscribes_of_reference scanned
    obtain ⟨proper, named⟩ := Grammar.path_eq_some_iff.mp made
    rw [Grammar.splitOn_solid] at proper named
    rw [List.map_map] at named
    have kept : ∀ segment ∈ atoms.splitOn (.bare '.'), solid segment ≠ [] :=
      fun segment member empty => proper (empty ▸ List.mem_map_of_mem member)
    refine ⟨_, ?_, .reference optional inscribes kept named⟩
    simpa using congrArg ('$' :: ·) same
  case h_4 rest =>
    subst whole
    obtain ⟨content, inner, rfl⟩ := Scan.ok_of_map scanned
    obtain ⟨same, last⟩ := Scan.closesLast_of_tripleQuoted inner
    refine ⟨_, ?_, .tripleQuoted last⟩
    rw [Scan.after_map]
    simpa using same
  case h_5 rest _ =>
    subst whole
    obtain ⟨content, inner, rfl⟩ := Scan.ok_of_map scanned
    obtain ⟨inside, same, decodes⟩ := Scan.decodes_of_quoted inner
    refine ⟨_, ?_, .quoted decodes⟩
    rw [Scan.after_map]
    simpa using same
  case h_6 c rest _ _ _ _ =>
    split at whole
    case h_1 symbol known =>
      subst whole
      cases scanned
      exact ⟨[c], rfl, .symbol known⟩
    case h_2 =>
      split at whole
      case isTrue =>
        subst whole
        cases scanned
      case isFalse letter =>
        subst whole
        cases scanned
        have begins : (word (c :: rest)).1 ≠ [] := by
          rw [word_of_letter (by simpa using letter) code]
          exact List.cons_ne_nil c _
        exact ⟨_, (word_append (c :: rest)).symm, .word begins (word_letters _) (word_code _)⟩

end Cursor
end Hocon
