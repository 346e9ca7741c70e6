import Hocon.Proofs.Decoding
import Hocon.Proofs.Grammar.Key

namespace Hocon

namespace Grammar

/-- A space or a tab outside quotes. -/
def Atom.isGap : Atom → Bool
  | .bare c => c = ' ' || c = '\t'
  | .quoted _ => false

/-- The mark of an optional reference. -/
def question (optional : Bool) : List Char := if optional then ['?'] else []

/-- The atoms that are kept. -/
def solid (atoms : List Atom) : List Atom := atoms.filter (!·.isGap)

/-- A text that may stand between the braces, and what it is made of. -/
inductive Inscribes : List Char → List Atom → Prop where
  | nil : Inscribes [] []
  | bare {c : Char} {text : List Char} {atoms : List Atom}
      (letter : isForbidden c = false ∨ c = ' ' ∨ c = '\t') (further : Inscribes text atoms) :
      Inscribes (c :: text) (.bare c :: atoms)
  | quoted {inside content text : List Char} {atoms : List Atom} (decodes : Scan.Decodes inside content)
      (further : Inscribes text atoms) :
      Inscribes ('"' :: (inside ++ '"' :: text)) (.quoted (String.ofList content) :: atoms)

variable {c : Char} {atom : Atom} {atoms : List Atom}

private theorem isGap_bare : (Atom.bare c).isGap = true ↔ c = ' ' ∨ c = '\t' := by
  simp [Atom.isGap]

private theorem isGap_of_letter (letter : isForbidden c = false) : (Atom.bare c).isGap = false := by
  rw [Bool.eq_false_iff, ne_eq, isGap_bare]
  rintro (rfl | rfl) <;> exact absurd letter (by decide)

theorem letter_of_solid (letter : isForbidden c = false ∨ c = ' ' ∨ c = '\t') (kept : (Atom.bare c).isGap = false) :
    isForbidden c = false := by
  refine letter.resolve_right fun gap => ?_
  rw [isGap_bare.mpr gap] at kept
  cases kept

theorem solid_cons_of_gap (gap : atom.isGap = true) : solid (atom :: atoms) = solid atoms :=
  List.filter_cons_of_neg (by simp [gap])

theorem solid_cons (kept : atom.isGap = false) : solid (atom :: atoms) = atom :: solid atoms :=
  List.filter_cons_of_pos (by simp [kept])

/-- Where no blank stands, everything is kept. -/
theorem solid_eq_self (flat : ∀ atom ∈ atoms, atom.isGap = false) : solid atoms = atoms :=
  List.filter_eq_self.mpr fun atom member => by simp [flat atom member]

/-- Dots are kept, so the segments are those between the same dots. -/
theorem splitOn_solid (atoms : List Atom) :
    (solid atoms).splitOn (.bare '.') = (atoms.splitOn (.bare '.')).map solid := by
  induction atoms with
  | nil => rfl
  | cons atom atoms ih =>
    obtain ⟨part, parts, cut⟩ : ∃ part parts, atoms.splitOn (.bare '.') = part :: parts :=
      List.exists_cons_of_ne_nil (List.splitOnP_ne_nil _ atoms)
    by_cases dot : atom = .bare '.'
    · subst dot
      rw [solid_cons rfl, KeyPath.Builder.splitOn_dot, ih, KeyPath.Builder.splitOn_dot]
      rfl
    · rw [KeyPath.Builder.splitOn_atom dot, cut]
      rw [cut] at ih
      cases gap : atom.isGap with
      | true => simp [solid_cons_of_gap gap, ih]
      | false => simp [solid_cons gap, KeyPath.Builder.splitOn_atom dot, ih]

end Grammar

private theorem KeyPath.Builder.take?_cons (builder : Builder) (atom : Grammar.Atom)
    (atoms : List Grammar.Atom) :
    builder.take? (atom :: atoms) = (builder.step? atom).bind (·.take? atoms) :=
  List.foldlM_cons

namespace Scan

open Grammar (Inscribes solid)

variable {start place : Position} {builder : KeyPath.Builder} {text content rest : List Char} {c : Char}
  {path : KeyPath}

private theorem referencePath_close : referencePath start builder place ('\x7d' :: rest) =
    match builder.path? with
    | some path => .ok path (place.after '\x7d') rest
    | none => .fail (.emptyPathSegment start) (place.after '\x7d') rest := by
  rw [referencePath]
  rfl

private theorem referencePath_gap (gap : c = ' ' ∨ c = '\t') :
    referencePath start builder place (c :: rest) = referencePath start builder (place.after c) rest := by
  rw [referencePath]
  rcases gap with rfl | rfl <;> rfl

private theorem referencePath_letter (letter : isForbidden c = false) :
    referencePath start builder place (c :: rest) =
      match builder.step? (.bare c) with
      | some next => referencePath start next (place.after c) rest
      | none => .fail (.emptyPathSegment start) (place.after c) rest := by
  have other {d : Char} (mark : isForbidden d = true) : c ≠ d := fun same => by
    rw [same, mark] at letter
    cases letter
  rw [referencePath, if_neg (other (by decide)), if_neg (other (by decide))]
  by_cases dot : c = '.'
  · cases made : builder.dot? with
    | none => simp only [if_pos dot, KeyPath.Builder.step?, made]
    | some next => simp only [if_pos dot, KeyPath.Builder.step?, made]
  · have solid : ¬(c = ' ' || c = '\t') = true := by
      simp [other (d := ' ') (by decide), other (d := '\t') (by decide)]
    rw [if_neg dot, if_neg solid, if_neg (other (by decide)), if_neg (by simp [letter])]
    simp only [KeyPath.Builder.step?, if_neg dot]

private theorem referencePath_quoted {after : Position}
    (scanned : quoted place.ahead (place.after '"') text = .ok content after rest) :
    referencePath start builder place ('"' :: text) =
      referencePath start (builder.append (String.ofList content)) after rest := by
  rw [referencePath]
  simp [scanned, ok]

end Scan

namespace Grammar

open Scan

variable {start : Position} {builder : KeyPath.Builder} {text content rest : List Char}
  {atoms : List Atom} {path : KeyPath}

private theorem Inscribes.referencePath (inscribes : Inscribes content atoms) (start : Position)
    (builder : KeyPath.Builder) (place : Position) (rest : List Char) :
    match (builder.take? (solid atoms)).bind (·.path?) with
    | some path => ∃ after, referencePath start builder place (content ++ '\x7d' :: rest) = .ok path after rest
    | none => (Scan.referencePath start builder place (content ++ '\x7d' :: rest)).outcome =
        .error (.emptyPathSegment start) := by
  induction inscribes generalizing builder place with
  | nil =>
    rw [List.nil_append, referencePath_close]
    have made : (builder.take? (solid [])).bind (·.path?) = builder.path? := rfl
    rw [made]
    cases builder.path? with
    | none => rfl
    | some path => exact ⟨_, rfl⟩
  | @bare c text atoms letter further ih =>
    rw [List.cons_append]
    rcases letter with letter | gap
    · rw [referencePath_letter letter, solid_cons (isGap_of_letter letter), KeyPath.Builder.take?_cons]
      cases builder.step? (.bare c) with
      | none => rfl
      | some next => exact ih next (place.after c)
    · rw [referencePath_gap gap, solid_cons_of_gap (isGap_bare.mpr gap)]
      exact ih builder (place.after c)
  | @quoted inside decoded text atoms decodes further ih =>
    obtain ⟨middle, read⟩ := decodes.quoted place.ahead (place.after '"') (text ++ '\x7d' :: rest)
    rw [List.cons_append, List.append_assoc, List.cons_append, referencePath_quoted read,
      solid_cons rfl, KeyPath.Builder.take?_cons]
    exact ih (builder.append (String.ofList decoded)) middle

/-- What is read up to a brace was written so. -/
private theorem inscribes_of_referencePath {place : Position}
    (scanned : (Scan.referencePath start builder place text).outcome = .ok path) :
    ∃ content atoms, text = content ++ '\x7d' :: (Scan.referencePath start builder place text).after.rest ∧
      Inscribes content atoms ∧ (builder.take? (solid atoms)).bind (·.path?) = some path := by
  fun_induction Scan.referencePath start builder place text
  case case2 builder place rest found known next =>
    cases scanned
    exact ⟨[], [], rfl, .nil, known⟩
  case case4 builder place rest decoded next _ known ih =>
    obtain ⟨inside, before, decodes⟩ := decodes_of_quoted known
    obtain ⟨content, atoms, whole, inscribes, made⟩ := ih scanned
    refine ⟨'"' :: (inside ++ '"' :: content), .quoted (String.ofList decoded) :: atoms, ?_,
      .quoted decodes inscribes, ?_⟩
    · rw [List.cons_append, List.append_assoc, List.cons_append, ← whole, ← before]
    · rw [solid_cons rfl, KeyPath.Builder.take?_cons]
      exact made
  case case6 builder place rest longer known next _ _ ih =>
    obtain ⟨content, atoms, whole, inscribes, made⟩ := ih scanned
    refine ⟨'.' :: content, .bare '.' :: atoms, congrArg ('.' :: ·) whole, .bare (.inl (by decide)) inscribes, ?_⟩
    rw [solid_cons rfl, KeyPath.Builder.take?_cons, KeyPath.Builder.step?, if_pos rfl, known]
    exact made
  case case8 builder place c rest next _ _ _ gap ih =>
    have gap : c = ' ' ∨ c = '\t' := by simpa using gap
    obtain ⟨content, atoms, whole, inscribes, made⟩ := ih scanned
    refine ⟨c :: content, .bare c :: atoms, congrArg (c :: ·) whole, .bare (.inr gap) inscribes, ?_⟩
    rw [solid_cons_of_gap (isGap_bare.mpr gap)]
    exact made
  case case11 builder place c rest next _ _ dot _ _ plain ih =>
    have letter : isForbidden c = false := by simpa using plain
    obtain ⟨content, atoms, whole, inscribes, made⟩ := ih scanned
    refine ⟨c :: content, .bare c :: atoms, congrArg (c :: ·) whole, .bare (.inl letter) inscribes, ?_⟩
    rw [solid_cons (isGap_of_letter letter), KeyPath.Builder.take?_cons, KeyPath.Builder.step?, if_neg dot]
    exact made
  all_goals cases scanned

private theorem Inscribes.head_ne (inscribes : Inscribes content atoms) (more : List Char) :
    content ++ '\x7d' :: rest ≠ '?' :: more := by
  intro same
  cases inscribes with
  | nil => cases same
  | bare letter =>
    cases same
    rcases letter with letter | gap | gap
    · cases letter
    · cases gap
    · cases gap
  | quoted => cases same

/-- A path between braces is a reference, unless a segment has nothing that is kept. -/
theorem Inscribes.reference (inscribes : Inscribes content atoms) (start place : Position) (optional : Bool)
    (rest : List Char) :
    match (KeyPath.Builder.empty.take? (solid atoms)).bind (·.path?) with
    | some path => ∃ after, Scan.reference start place
        ('\x7b' :: (question optional ++ content ++ '\x7d' :: rest)) = .ok (.reference path optional) after rest
    | none => (Scan.reference start place ('\x7b' :: (question optional ++ content ++ '\x7d' :: rest))).outcome =
        .error (.emptyPathSegment start) := by
  obtain ⟨middle, begun⟩ : ∃ middle, Scan.reference start place
      ('\x7b' :: (question optional ++ content ++ '\x7d' :: rest)) =
        (Scan.referencePath start .empty middle (content ++ '\x7d' :: rest)).map (.reference · optional) := by
    cases optional with
    | true => exact ⟨_, rfl⟩
    | false =>
      refine ⟨place.after '\x7b', ?_⟩
      rw [Scan.reference.eq_def]
      split
      case h_1 same => exact absurd (List.cons.inj same).2 (inscribes.head_ne _)
      case h_2 same =>
        cases same
        rfl
      case h_3 other => exact absurd rfl (other _)
  have found := inscribes.referencePath start .empty middle rest
  rw [begun]
  split
  case h_1 path made =>
    rw [made] at found
    obtain ⟨after, found⟩ := found
    rw [found]
    exact ⟨after, rfl⟩
  case h_2 made =>
    rw [made] at found
    rw [Scan.map, found]
    rfl

theorem inscribes_of_reference {place : Position} {token : Token}
    (scanned : (Scan.reference start place text).outcome = .ok token) :
    ∃ path optional content atoms, token = .reference path optional ∧ Inscribes content atoms ∧
      (KeyPath.Builder.empty.take? (solid atoms)).bind (·.path?) = some path ∧
      text = '\x7b' :: (question optional ++ content ++ '\x7d' :: (Scan.reference start place text).after.rest) := by
  unfold Scan.reference at scanned ⊢
  split at scanned
  case h_1 inside =>
    obtain ⟨path, inner, rfl⟩ := ok_of_map scanned
    obtain ⟨content, atoms, same, inscribes, made⟩ := inscribes_of_referencePath inner
    exact ⟨path, true, content, atoms, rfl, inscribes, made, congrArg ('\x7b' :: '?' :: ·) same⟩
  case h_2 inside _ =>
    obtain ⟨path, inner, rfl⟩ := ok_of_map scanned
    obtain ⟨content, atoms, same, inscribes, made⟩ := inscribes_of_referencePath inner
    exact ⟨path, false, content, atoms, rfl, inscribes, made, congrArg ('\x7b' :: ·) same⟩
  case h_3 => cases scanned

end Grammar
end Hocon
