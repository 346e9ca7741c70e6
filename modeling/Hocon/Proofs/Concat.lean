import Hocon.Document
import Hocon.Proofs.Run

namespace Hocon

/-- One piece is a value as it is, unless it is the bare word `null`. -/
theorem joinPieces_alone {bare : Bool} {piece : Value} (apart : bare = true → piece ≠ .text "null") :
    joinPieces bare [piece] = .ok piece := by
  unfold joinPieces
  split
  case h_1 same =>
    cases same
    cases bare
    · rfl
    · exact absurd rfl (apart rfl)
  case h_2 same =>
    cases same
    rfl
  case h_3 other => exact absurd rfl (other _)

namespace Value

private theorem mismatch_of_append {first second : Value} {fault : Fault}
    (failed : append first second = .error fault) : ∃ left right, fault = .concatMismatch left right := by
  unfold append at failed
  split at failed
  case h_4 =>
    cases failed
    exact ⟨_, _, rfl⟩
  all_goals cases failed

private theorem mismatch_of_foldlM {first : Value} {rest : List Value} {fault : Fault}
    (failed : rest.foldlM append first = .error fault) : ∃ left right, fault = .concatMismatch left right := by
  induction rest generalizing first with
  | nil => cases failed
  | cons next rest ih =>
    rw [List.foldlM_cons] at failed
    cases joined : append first next with
    | error cause =>
      rw [joined] at failed
      cases failed
      exact mismatch_of_append joined
    | ok both =>
      rw [joined] at failed
      exact ih failed

theorem mismatch_of_concatenate {pieces : List Value} {fault : Fault}
    (failed : concatenate pieces = .error fault) : ∃ left right, fault = .concatMismatch left right := by
  unfold concatenate at failed
  split at failed
  · cases failed
  · exact mismatch_of_foldlM failed

end Value

theorem mismatch_of_joinPieces {bare : Bool} {pieces : List Value} {fault : Fault}
    (failed : joinPieces bare pieces = .error fault) :
    ∃ left right, fault = .concatMismatch left right := by
  unfold joinPieces at failed
  split at failed
  · cases failed
  · cases failed
  · split at failed
    · cases failed
    · exact Value.mismatch_of_concatenate failed

namespace Value

/-- What joining looks at: the kind of a value, and the text of a text. -/
def face : Value → Kind × String
  | .text content => (.text, content)
  | value => (value.kind, "")

theorem kind_face (value : Value) : value.face.1 = value.kind := by
  cases value <;> rfl

private theorem isBlank_face (value : Value) :
    value.isBlank = (value.face.1 == .text && Text.isAllWhite value.face.2) := by
  cases value <;> rfl

theorem any_isReference (values : List Value) :
    values.any isReference = (values.map face).any fun face => face.1 == .reference := by
  rw [List.any_map]
  simp only [Function.comp_def, kind_face]
  rfl

private theorem map_face_significant (pieces : List Value) :
    (significant pieces).map face =
      if (pieces.map face).any fun face => face.1 == .object || face.1 == .array then
        (pieces.map face).filter fun face => !(face.1 == .text && Text.isAllWhite face.2)
      else pieces.map face := by
  have bulky : (pieces.any fun piece => piece.isObject || piece.isArray) =
      (pieces.map face).any fun face => face.1 == .object || face.1 == .array := by
    rw [List.any_map]
    simp only [Function.comp_def, kind_face, isObject, isArray]
  have filled : (fun piece : Value => !piece.isBlank) =
      (fun face => !(face.1 == .text && Text.isAllWhite face.2)) ∘ face := by
    funext piece
    simp only [Function.comp_apply, isBlank_face]
  unfold significant
  rw [bulky]
  split
  · rw [filled, List.filter_map]
  · rfl

private theorem append_of_faces {first second other more joined : Value} (firsts : first.face = other.face)
    (seconds : second.face = more.face) (done : append first second = .ok joined) :
    ∃ result, append other more = .ok result ∧ joined.face = result.face := by
  unfold append at done
  split at done
  case h_1 a b =>
    cases other <;> cases firsts
    cases more <;> cases seconds
    exact ⟨_, rfl, Except.ok.inj done ▸ rfl⟩
  case h_2 a b =>
    cases other <;> cases firsts
    cases more <;> cases seconds
    exact ⟨_, rfl, Except.ok.inj done ▸ rfl⟩
  case h_3 a b =>
    cases other <;> cases firsts
    cases more <;> cases seconds
    exact ⟨_, rfl, Except.ok.inj done ▸ rfl⟩
  case h_4 => cases done

private theorem foldlM_append_of_faces {first other joined : Value} {rest more : List Value}
    (firsts : first.face = other.face) (others : rest.map face = more.map face)
    (done : rest.foldlM append first = .ok joined) : ∃ result, more.foldlM append other = .ok result := by
  induction rest generalizing first other more with
  | nil =>
    obtain rfl : more = [] := by simpa using others.symm
    exact ⟨other, rfl⟩
  | cons next rest ih =>
    cases more with
    | nil => cases others
    | cons follow more =>
      obtain ⟨nexts, others⟩ := List.cons.inj others
      rw [List.foldlM_cons] at done ⊢
      obtain ⟨both, met, done⟩ := ok_of_bind done
      obtain ⟨result, same, faces⟩ := append_of_faces firsts nexts met
      rw [same]
      exact ih faces others done

theorem concatenate_of_faces {pieces others : List Value} {joined : Value}
    (faces : pieces.map face = others.map face) (done : concatenate pieces = .ok joined) :
    ∃ result, concatenate others = .ok result := by
  have significants : (significant pieces).map face = (significant others).map face := by
    rw [map_face_significant, map_face_significant, faces]
  unfold concatenate at done ⊢
  split at done
  case h_1 none =>
    have empty : significant others = [] := by simpa [none] using significants.symm
    rw [empty]
    exact ⟨_, rfl⟩
  case h_2 first rest some =>
    rw [some] at significants
    cases more : significant others with
    | nil => simp [more] at significants
    | cons other more =>
      rw [more] at significants
      obtain ⟨firsts, others⟩ := List.cons.inj significants
      exact foldlM_append_of_faces firsts others done

end Value

/-- The kinds that are joined with their own. -/
def Kind.Joinable (kind : Kind) : Prop := kind = .text ∨ kind = .array ∨ kind = .object

namespace Value

variable {first second joined : Value} {pieces rest : List Value}

theorem kind_of_append (done : append first second = .ok joined) :
    first.kind = second.kind ∧ joined.kind = first.kind := by
  unfold append at done
  split at done
  case h_4 => cases done
  all_goals
    cases done
    exact ⟨rfl, rfl⟩

theorem append_of_kind (joinable : first.kind.Joinable) (same : first.kind = second.kind) :
    ∃ joined, append first second = .ok joined := by
  cases first <;> cases second <;> cases same <;>
    first | exact ⟨_, rfl⟩ | (rcases joinable with kind | kind | kind <;> cases kind)

private theorem foldlM_append_ok_iff (joinable : first.kind.Joinable) :
    (∃ joined, rest.foldlM append first = .ok joined) ↔ ∀ piece ∈ rest, first.kind = piece.kind := by
  induction rest generalizing first with
  | nil => exact ⟨fun _ => by simp, fun _ => ⟨first, rfl⟩⟩
  | cons next rest ih =>
    simp only [List.foldlM_cons, List.forall_mem_cons]
    constructor
    · rintro ⟨joined, done⟩
      obtain ⟨both, met, done⟩ := ok_of_bind done
      obtain ⟨same, kind⟩ := kind_of_append met
      rw [← kind] at joinable
      exact ⟨same, fun piece member => kind ▸ (ih joinable).mp ⟨joined, done⟩ piece member⟩
    · rintro ⟨same, others⟩
      obtain ⟨both, met⟩ := append_of_kind joinable same
      obtain ⟨_, kind⟩ := kind_of_append met
      rw [met]
      exact (ih (kind ▸ joinable)).mpr fun piece member => kind ▸ others piece member

/-- Pieces are joined just when those that count are of one kind. -/
private theorem concatenate_ok_iff (joinable : ∀ piece ∈ pieces, piece.kind.Joinable) :
    (∃ joined, concatenate pieces = .ok joined) ↔
      ∀ piece ∈ significant pieces, ∀ other ∈ significant pieces, piece.kind = other.kind := by
  have counted : ∀ piece ∈ significant pieces, piece.kind.Joinable := by
    intro piece member
    unfold significant at member
    split at member
    · exact joinable piece (List.mem_filter.mp member).1
    · exact joinable piece member
  unfold concatenate
  cases whole : significant pieces with
  | nil => exact ⟨fun _ => by simp, fun _ => ⟨_, rfl⟩⟩
  | cons first rest =>
    rw [whole] at counted
    simp only [foldlM_append_ok_iff (counted first (.head rest))]
    constructor
    · intro same piece member other another
      have alike : ∀ piece ∈ first :: rest, first.kind = piece.kind :=
        List.forall_mem_cons.mpr ⟨rfl, same⟩
      exact (alike piece member).symm.trans (alike other another)
    · exact fun same piece member => same first (.head rest) piece (.tail first member)

/-- Faces that do not go together: an array and an object, or one of them and a text that is
not blank. -/
def Clash (faces : List (Kind × String)) : Prop :=
  ∃ bulky ∈ faces, ∃ other ∈ faces,
    bulky.1 = .array ∧ other.1 = .object ∨
      (bulky.1 = .array ∨ bulky.1 = .object) ∧ other.1 = .text ∧ Text.isAllWhite other.2 = false

/-- Without references, pieces are joined just when no two of them clash. -/
theorem concatenate_ok_iff_not_clash (joinable : ∀ piece ∈ pieces, piece.kind.Joinable) :
    (∃ joined, concatenate pieces = .ok joined) ↔ ¬ Clash (pieces.map face) := by
  have counts : (∃ joined, concatenate pieces = .ok joined) ↔
      ∀ one ∈ (significant pieces).map face, ∀ other ∈ (significant pieces).map face, one.1 = other.1 := by
    rw [concatenate_ok_iff joinable]
    simp only [List.forall_mem_map, kind_face]
  have joinable : ∀ one ∈ pieces.map face, one.1.Joinable := by
    simpa only [List.forall_mem_map, kind_face] using joinable
  rw [counts, map_face_significant]
  generalize pieces.map face = faces at joinable
  split
  case isTrue some =>
    obtain ⟨bulky, member, kind⟩ := List.any_eq_true.mp some
    replace kind : bulky.1 = .object ∨ bulky.1 = .array := by simpa using kind
    have kept : ∀ one ∈ faces, (one.1 = .text → Text.isAllWhite one.2 = false) →
        one ∈ faces.filter fun face => !(face.1 == .text && Text.isAllWhite face.2) := by
      intro one inside solid
      refine List.mem_filter.mpr ⟨inside, ?_⟩
      by_cases text : one.1 = .text
      · simp [solid text]
      · simp [text]
    constructor
    · rintro same ⟨one, inside, other, another, ⟨array, object⟩ | ⟨structured, text, solid⟩⟩
      · have equal := same one (kept one inside (by simp [array])) other
          (kept other another (by simp [object]))
        rw [array, object] at equal
        cases equal
      · have equal := same one (kept one inside fun own => by simp [own] at structured) other
          (kept other another fun _ => solid)
        rw [equal, text] at structured
        rcases structured with kind | kind <;> cases kind
    · intro apart
      -- Each face that counts has the kind of the array or object that is there.
      have alike : ∀ one ∈ faces.filter (fun face => !(face.1 == .text && Text.isAllWhite face.2)),
          one.1 = bulky.1 := by
        intro one counted
        obtain ⟨inside, solid⟩ := List.mem_filter.mp counted
        rcases joinable one inside with text | array | object
        · refine absurd ⟨bulky, member, one, inside, .inr ⟨kind.symm, text, ?_⟩⟩ apart
          simpa [text] using solid
        · rcases kind with other | same
          · exact absurd ⟨one, inside, bulky, member, .inl ⟨array, other⟩⟩ apart
          · rw [array, same]
        · rcases kind with same | other
          · rw [object, same]
          · exact absurd ⟨bulky, member, one, inside, .inl ⟨other, object⟩⟩ apart
      exact fun one counted other another => (alike one counted).trans (alike other another).symm
  case isFalse none =>
    have light : ∀ one ∈ faces, ¬ (one.1 = .array ∨ one.1 = .object) := by
      intro one inside kind
      refine none (List.any_eq_true.mpr ⟨one, inside, ?_⟩)
      rcases kind with array | object
      · simp [array]
      · simp [object]
    constructor
    · rintro _ ⟨one, inside, other, another, ⟨array, _⟩ | ⟨structured, _⟩⟩
      · exact light one inside (.inl array)
      · exact light one inside structured
    · intro _ one inside other another
      have text : ∀ one ∈ faces, one.1 = .text := fun one inside =>
        (joinable one inside).resolve_right (light one inside)
      rw [text one inside, text other another]

end Value
end Hocon
