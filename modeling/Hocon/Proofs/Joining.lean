import Hocon.Proofs.Concat
import Mathlib.Data.Set.List

namespace Hocon.Value

/-- A later piece can join the first one: both are texts, or arrays, or objects. -/
def Joins (first piece : Value) : Prop := first.kind.Joinable ∧ first.kind = piece.kind

/-- Pieces that go together, and what they make. -/
inductive Joined : List Value → Value → Prop where
  | single (piece : Value) : Joined [piece] piece
  /-- Strung together; no texts make the empty one. -/
  | texts (contents : List String) : Joined (contents.map text) (text (String.join contents))
  | arrays (first : List Value) (rest : List (List Value)) :
    Joined ((first :: rest).map array) (array (first :: rest).flatten)
  /-- Merged from left to right. -/
  | objects (first : Object) (rest : List Object) :
    Joined ((first :: rest).map object) (object (rest.foldl Object.merge first))

variable {first second result : Value} {pieces rest : List Value} {fault : Fault}

private theorem joins_of_append (done : append first second = .ok result) : first.Joins second := by
  refine ⟨?_, (kind_of_append done).1⟩
  unfold append at done
  split at done
  case h_1 => exact .inl rfl
  case h_2 => exact .inr (.inl rfl)
  case h_3 => exact .inr (.inr rfl)
  case h_4 => cases done

/-- What has been joined is of the kind of the first piece, so the same pieces can join it. -/
private theorem joins_eq_of_append (done : append first second = .ok result) : result.Joins = first.Joins := by
  unfold Joins
  rw [(kind_of_append done).2]

private theorem append_of_not_joins (apart : ¬ first.Joins second) :
    append first second = .error (.concatMismatch first.kind second.kind) := by
  cases joined : append first second with
  | ok result => exact absurd (joins_of_append joined) apart
  | error fault =>
    unfold append at joined
    split at joined
    case h_4 => rw [← joined]
    all_goals cases joined

private theorem foldlM_append_map {α : Type} {make : α → Value} {both : α → α → α}
    (joins : ∀ a b, append (make a) (make b) = .ok (make (both a b))) (first : α) (rest : List α) :
    (rest.map make).foldlM append (make first) = .ok (make (rest.foldl both first)) := by
  induction rest generalizing first with
  | nil => rfl
  | cons next rest ih =>
    rw [List.map_cons, List.foldlM_cons, joins]
    exact ih (both first next)

private theorem Joined.foldlM_append (joined : Joined (first :: rest) result) :
    rest.foldlM append first = .ok result := by
  generalize whole : first :: rest = pieces at joined
  cases joined with
  | single piece =>
    cases whole
    rfl
  | texts contents =>
    cases contents with
    | nil => cases whole
    | cons content contents =>
      cases whole
      have strung : String.join (content :: contents) = contents.foldl (· ++ ·) content := by
        rw [String.join, List.foldl_cons, String.empty_append]
      rw [strung]
      exact foldlM_append_map (fun _ _ => rfl) content contents
  | arrays items others =>
    cases whole
    have appended : (items :: others).flatten = others.foldl (· ++ ·) items := by
      rw [List.flatten_cons, List.foldl_append_eq_append, List.map_id']
    rw [appended]
    exact foldlM_append_map (fun _ _ => rfl) items others
  | objects fields others =>
    cases whole
    exact foldlM_append_map (fun _ _ => rfl) fields others

private theorem exists_map_of_kind {α : Type} (make : α → Value) {kind : Kind}
    (made : ∀ piece : Value, piece.kind = kind → ∃ a, make a = piece) (alike : ∀ piece ∈ pieces, piece.kind = kind) :
    ∃ parts : List α, parts.map make = pieces := by
  have inside : pieces ∈ Set.range (List.map make) := by
    rw [Set.range_list_map]
    exact fun piece member => made piece (alike piece member)
  exact inside

private theorem joined_of_kind {kind : Kind} (joinable : kind.Joinable)
    (alike : ∀ piece ∈ pieces, piece.kind = kind) :
    ∃ result, Joined pieces result := by
  rcases joinable with rfl | rfl | rfl
  · obtain ⟨contents, rfl⟩ := exists_map_of_kind text (by rintro ⟨⟩ ⟨⟩; exact ⟨_, rfl⟩) alike
    exact ⟨_, .texts contents⟩
  · obtain ⟨lists, rfl⟩ := exists_map_of_kind array (by rintro ⟨⟩ ⟨⟩; exact ⟨_, rfl⟩) alike
    cases lists with
    | nil => exact ⟨_, .texts []⟩
    | cons items others => exact ⟨_, .arrays items others⟩
  · obtain ⟨objects, rfl⟩ := exists_map_of_kind object (by rintro ⟨⟩ ⟨⟩; exact ⟨_, rfl⟩) alike
    cases objects with
    | nil => exact ⟨_, .texts []⟩
    | cons fields others => exact ⟨_, .objects fields others⟩

/-- What goes together is one piece, or all of one kind. -/
private theorem exists_joined_iff : (∃ result, Joined pieces result) ↔
    (∃ piece, pieces = [piece]) ∨ ∃ kind : Kind, kind.Joinable ∧ ∀ piece ∈ pieces, piece.kind = kind := by
  constructor
  · rintro ⟨result, joined⟩
    cases joined with
    | single => exact .inl ⟨_, rfl⟩
    | texts contents => exact .inr ⟨.text, .inl rfl, List.forall_mem_map.mpr fun _ _ => rfl⟩
    | arrays items others => exact .inr ⟨.array, .inr (.inl rfl), List.forall_mem_map.mpr fun _ _ => rfl⟩
    | objects fields others => exact .inr ⟨.object, .inr (.inr rfl), List.forall_mem_map.mpr fun _ _ => rfl⟩
  · rintro (⟨piece, rfl⟩ | ⟨kind, joinable, alike⟩)
    · exact ⟨_, .single _⟩
    · exact joined_of_kind joinable alike

/-- Joining fails at the first piece that cannot join the first one of all. -/
private theorem foldlM_append_eq_error_iff :
    rest.foldlM append first = .error fault ↔ ∃ before odd after, rest = before ++ odd :: after ∧
      (∀ piece ∈ before, first.Joins piece) ∧ ¬ first.Joins odd ∧ fault = .concatMismatch first.kind odd.kind := by
  induction rest generalizing first with
  | nil =>
    constructor
    · nofun
    · rintro ⟨before, odd, after, whole, _⟩
      simp at whole
  | cons next rest ih =>
    rw [List.foldlM_cons]
    cases met : append first next with
    | ok both =>
      have joins := joins_of_append met
      refine Iff.trans (@ih both) ?_
      rw [joins_eq_of_append met, (kind_of_append met).2]
      constructor
      · rintro ⟨before, odd, after, rfl, others, failed⟩
        exact ⟨next :: before, odd, after, rfl, List.forall_mem_cons.mpr ⟨joins, others⟩, failed⟩
      · rintro ⟨before, odd, after, whole, others, apart, named⟩
        cases before with
        | nil =>
          cases whole
          exact absurd joins apart
        | cons piece before =>
          cases whole
          exact ⟨before, odd, after, rfl, (List.forall_mem_cons.mp others).2, apart, named⟩
    | error cause =>
      have apart : ¬ first.Joins next := by
        rintro ⟨joinable, same⟩
        obtain ⟨both, done⟩ := append_of_kind joinable same
        rw [done] at met
        cases met
      rw [append_of_not_joins apart] at met
      cases met
      constructor
      · rintro ⟨⟩
        exact ⟨[], next, rest, rfl, by simp, apart, rfl⟩
      · rintro ⟨before, odd, after, whole, others, _, rfl⟩
        cases before with
        | nil =>
          cases whole
          rfl
        | cons piece before =>
          cases whole
          exact absurd (others next (.head before)) apart

private theorem joins_of_foldlM_append (done : rest.foldlM append first = .ok result) :
    ∀ piece ∈ rest, first.Joins piece := by
  induction rest generalizing first with
  | nil => simp
  | cons next rest ih =>
    rw [List.foldlM_cons] at done
    obtain ⟨both, met, done⟩ := ok_of_bind done
    have others := ih done
    rw [joins_eq_of_append met] at others
    exact List.forall_mem_cons.mpr ⟨joins_of_append met, others⟩

private theorem foldlM_append_eq_ok_iff :
    rest.foldlM append first = .ok result ↔ Joined (first :: rest) result := by
  refine ⟨fun done => ?_, Joined.foldlM_append⟩
  have together : ∃ other, Joined (first :: rest) other := by
    cases rest with
    | nil => exact ⟨first, .single first⟩
    | cons next rest =>
      have joins := joins_of_foldlM_append done
      refine joined_of_kind (joins next (.head rest)).1 (List.forall_mem_cons.mpr ⟨rfl, ?_⟩)
      exact fun piece member => (joins piece member).2.symm
  obtain ⟨other, joined⟩ := together
  rw [joined.foldlM_append] at done
  exact Except.ok.inj done ▸ joined

private theorem significant_eq (pieces : List Value) : significant pieces =
    if ∃ piece ∈ pieces, piece.kind = .object ∨ piece.kind = .array then pieces.filter (!·.isBlank) else pieces := by
  unfold significant
  simp only [List.any_eq_true, Bool.or_eq_true, isObject, isArray, beq_iff_eq]

/-- Blank texts do not count beside an object or an array. The pieces that count are joined just when
there is one alone or all are texts, arrays or objects, to that piece, the texts strung together, the
arrays appended or the objects merged. Otherwise the fault, with number 403, names the kinds of the
first piece that counts and of the first later one that cannot join it. -/
theorem concatenate_by_rule (pieces : List Value) :
    let counted :=
      if ∃ piece ∈ pieces, piece.kind = .object ∨ piece.kind = .array then pieces.filter (!·.isBlank) else pieces
    (∀ result, concatenate pieces = .ok result ↔ Joined counted result) ∧
      ((∃ result, concatenate pieces = .ok result) ↔ (∃ piece, counted = [piece]) ∨
        ∃ kind : Kind, kind.Joinable ∧ ∀ piece ∈ counted, piece.kind = kind) ∧
      ∀ fault, concatenate pieces = .error fault ↔ ∃ first before odd after,
        counted = first :: (before ++ odd :: after) ∧ (∀ piece ∈ before, first.Joins piece) ∧ ¬ first.Joins odd ∧
          fault = .concatMismatch first.kind odd.kind ∧
          fault.report = ⟨.concatMismatch first.kind.label odd.kind.label, none, some 403⟩ := by
  intro counted
  have whole : significant pieces = counted := significant_eq pieces
  clear_value counted
  unfold concatenate
  rw [whole]
  cases counted with
  | nil =>
    refine ⟨fun result => ?_, ?_, fun fault => ⟨nofun, ?_⟩⟩
    · constructor
      · rintro ⟨⟩
        exact .texts []
      · intro joined
        generalize empty : ([] : List Value) = none at joined
        cases joined with
        | texts contents =>
          rw [List.map_eq_nil_iff.mp empty.symm]
          rfl
        | single | arrays | objects => cases empty
    · exact iff_of_true ⟨_, rfl⟩ (.inr ⟨.text, .inl rfl, by simp⟩)
    · rintro ⟨first, before, odd, after, none, _⟩
      cases none
  | cons first rest =>
    refine ⟨fun result => foldlM_append_eq_ok_iff, ?_, fun fault => foldlM_append_eq_error_iff.trans ?_⟩
    · simp only [foldlM_append_eq_ok_iff]
      exact exists_joined_iff
    constructor
    · rintro ⟨before, odd, after, rfl, joins, apart, rfl⟩
      exact ⟨first, before, odd, after, rfl, joins, apart, rfl, rfl⟩
    · rintro ⟨first, before, odd, after, same, joins, apart, named, _⟩
      cases same
      exact ⟨before, odd, after, rfl, joins, apart, named⟩

/-- `null` joins nothing, not even itself, and a blank text beside it counts. -/
example : concatenate [.null, .text " ", .null] = .error (.concatMismatch .null .text) := rfl

end Hocon.Value
