import Hocon.Proofs.Grammar.Acceptance

/-! The directives of a text. They are found by reading it with nothing for an answer, and are
those that any reading hands over: one that ends well has an answer to each of them, and a cycle
of includes comes from the answer to one. -/
namespace Hocon

/-- Answers every directive with nothing. -/
def Includer.silent : Includer := fun _ => pure .empty

/-- The directives of a text in order, as far as it can be read. -/
def directivesOf (text : String) : List Directive := ((parse .silent text).outcome .start).2.asked

theorem Session.asked_note (session : Session) (directive : Directive) :
    ({ session with notes := .asked directive :: session.notes } : Session).asked =
      session.asked ++ [directive] := by
  simp [asked, history]

namespace Includer

theorem silent_objects : Includer.silent.Objects := by
  intro directive session after root done
  cases done
  exact ⟨[], rfl⟩

/-- The directive is answered at some time. -/
def Answers (includer : Includer) (directive : Directive) : Prop :=
  ∃ before root behind, includer directive before = .ok root behind

/-- The answer to the directive is a fault at some time. -/
def Refuses (includer : Includer) (directive : Directive) (fault : Fault) : Prop :=
  ∃ before behind, includer directive before = .error fault behind

end Includer

private theorem joinPieces_of_faces {bare : Bool} {pieces others : List Value}
    (faces : pieces.map Value.face = others.map Value.face) {joined : Value}
    (done : joinPieces bare pieces = .ok joined) : ∃ result, joinPieces bare others = .ok result := by
  match pieces, others with
  | [], [] => exact ⟨joined, done⟩
  | [_], [other] => exact Grammar.joinPieces_single bare other
  | first :: second :: rest, other :: another :: more =>
    have references : (first :: second :: rest).any Value.isReference =
        (other :: another :: more).any Value.isReference := by
      rw [Value.any_isReference, Value.any_isReference, faces]
    rw [Grammar.joinPieces_several, references] at done
    rw [Grammar.joinPieces_several]
    by_cases waits : (other :: another :: more).any Value.isReference = true
    · rw [if_pos waits]
      exact ⟨_, rfl⟩
    · rw [if_neg waits] at done ⊢
      exact Value.concatenate_of_faces faces done
  | [], _ :: _ | _ :: _, [] | [_], _ :: _ :: _ | _ :: _ :: _, [_] => simp at faces

private theorem joinPieces_local {bare : Bool} {pieces : List Value} {fault : Fault}
    (failed : joinPieces bare pieces = .error fault) : fault.Local := by
  obtain ⟨left, right, rfl⟩ := mismatch_of_joinPieces failed
  exact rfl

private theorem asObject_alike {value other : Value} (same : value.isObject = other.isObject) {fields : Object}
    (object : value.asObject = .ok fields) : ∃ more, other.asObject = .ok more := by
  cases value <;> cases object
  cases other <;> cases same
  exact ⟨_, rfl⟩

private theorem asObject_local {value : Value} {fault : Fault} (failed : value.asObject = .error fault) :
    fault.Local := by
  cases value <;> cases failed <;> exact rfl

/-- A run and its shadow, in which nothing is answered. They make things of the same view, the
shadow asks for what the run has answers to, and if the run meets a cycle of includes, then in
the answer to something that the shadow asks for. -/
structure Shadows (includer : Includer) {α ν : Type} (view : α → ν) (run shadow : Run α) : Prop where
  grows : ∀ session, session.asked ⊆ (shadow.outcome session).2.asked
  answered : ∀ {session after made} other, run session = .ok made after →
    ∃ mirrored behind, shadow other = .ok mirrored behind ∧ view made = view mirrored ∧
      ∀ directive ∈ behind.asked, directive ∈ other.asked ∨ includer.Answers directive
  refused : ∀ {session after path} other, run session = .error (.includeCycle path) after →
    ∃ directive ∈ (shadow.outcome other).2.asked, includer.Refuses directive (.includeCycle path)

namespace Shadows

variable {includer : Includer} {α β ν μ : Type} {view : α → ν} {look : β → μ} {run shadow : Run α}

private theorem pure {made mirrored : α} (same : view made = view mirrored) :
    Shadows includer view (pure made) (pure mirrored) where
  grows session directive member := member
  answered other ran := by
    cases ran
    exact ⟨mirrored, other, rfl, same, fun directive member => .inl member⟩
  refused other ran := by cases ran

private theorem throw {fault : Fault} (own : fault.Local) :
    Shadows includer view (throw fault) (throw fault) where
  grows session directive member := member
  answered other ran := by cases ran
  refused other ran := by
    cases ran
    cases own

private theorem freshId : Shadows includer (fun _ => ()) Run.freshId Run.freshId where
  grows session directive member := member
  answered other ran := by
    cases ran
    exact ⟨other.nextId, _, rfl, rfl, fun directive member => .inl member⟩
  refused other ran := by cases ran

private theorem ofExcept {outcome mirrored : Except Fault α}
    (alike : ∀ {made}, outcome = .ok made → ∃ other, mirrored = .ok other)
    (own : ∀ {fault}, outcome = .error fault → fault.Local) :
    Shadows includer (fun _ => ()) (Run.ofExcept outcome) (Run.ofExcept mirrored) where
  grows session directive member := by cases mirrored <;> exact member
  answered other ran := by
    obtain ⟨done, _⟩ := Run.ok_of_ofExcept ran
    obtain ⟨result, rfl⟩ := alike done
    exact ⟨result, other, rfl, rfl, fun directive member => .inl member⟩
  refused other ran := by
    cases outcome with
    | ok made => cases ran
    | error fault =>
      cases ran
      cases own rfl

private theorem bind {next further : α → Run β} (begins : Shadows includer view run shadow)
    (goes : ∀ {made mirrored}, view made = view mirrored →
      Shadows includer look (next made) (further mirrored)) :
    Shadows includer look (run >>= next) (shadow >>= further) where
  grows session directive member := by
    have begun := begins.grows session member
    rw [Run.outcome_bind]
    rw [Run.outcome] at begun
    cases ran : shadow session with
    | ok mirrored middle =>
      rw [ran] at begun
      exact (goes (rfl : view mirrored = view mirrored)).grows middle begun
    | error fault middle =>
      rw [ran] at begun
      exact begun
  answered other ran := by
    obtain ⟨made, middle, first, ran⟩ := Run.ok_of_bind ran
    obtain ⟨mirrored, between, mirror, same, asked⟩ := begins.answered other first
    obtain ⟨result, behind, done, seen, later⟩ := (goes same).answered between ran
    refine ⟨result, behind, Run.bind_of_ok mirror done, seen, fun directive member => ?_⟩
    rcases later directive member with early | answered
    · exact asked directive early
    · exact .inr answered
  refused other ran := by
    rw [Run.outcome_bind]
    rcases Run.error_of_bind ran with first | ⟨made, middle, first, ran⟩
    · obtain ⟨directive, member, refuses⟩ := begins.refused other first
      rw [Run.outcome] at member
      cases mirror : shadow other with
      | ok mirrored between =>
        rw [mirror] at member
        exact ⟨directive, (goes (rfl : view mirrored = view mirrored)).grows between member, refuses⟩
      | error fault between =>
        rw [mirror] at member
        exact ⟨directive, member, refuses⟩
    · obtain ⟨mirrored, between, mirror, same, _⟩ := begins.answered other first
      rw [mirror]
      exact (goes same).refused between ran

private theorem directive (objects : includer.Objects) (directive : Directive) :
    Shadows includer (fun root : Root => root.value.isObject)
      (Run.note (.asked directive) >>= fun _ => includer directive)
      (Run.note (.asked directive) >>= fun _ => Includer.silent directive) where
  grows session asked member := by
    have noted := List.mem_append_left [directive] member
    rw [← Session.asked_note] at noted
    exact noted
  answered other ran := by
    obtain ⟨_, noted, _, ran⟩ := Run.ok_of_bind ran
    obtain ⟨fields, object⟩ := objects ran
    refine ⟨.empty, _, rfl, by simp only [object]; rfl, fun asked member => ?_⟩
    have member : asked ∈ other.asked ++ [directive] := Session.asked_note other directive ▸ member
    rcases List.mem_append.mp member with early | own
    · exact .inl early
    · obtain rfl := List.mem_singleton.mp own
      exact .inr ⟨noted, _, _, ran⟩
  refused other ran := by
    rcases Run.error_of_bind ran with noted | ⟨_, noted, _, ran⟩
    · cases noted
    · refine ⟨directive, ?_, noted, _, ran⟩
      have member := List.mem_append_right other.asked (List.mem_singleton_self directive)
      rw [← Session.asked_note] at member
      exact member

end Shadows

namespace Grammar

open Includer (silent)

variable {includer : Includer}

private theorem join_shadows {bare : Bool} {parts shadow : Run (Made (List Value))}
    (gathered : Shadows includer (fun made => made.value.map Value.face) parts shadow) :
    Shadows includer (fun _ => ()) (join bare parts) (join bare shadow) :=
  gathered.bind fun faces =>
    (Shadows.ofExcept (joinPieces_of_faces faces) joinPieces_local).bind fun _ => .pure rfl

mutual

private theorem Piece.shadows (objects : includer.Objects) (piece : Piece) :
    Shadows includer (fun made => made.value.face) (piece.run includer) (piece.run silent) := by
  cases piece with
  | text bare content => exact .pure rfl
  | reference path optional place => exact Shadows.freshId.bind fun _ => .pure rfl
  | object fields => exact (Fields.shadows objects fields).bind fun _ => .pure rfl
  | array elements => exact (Elements.shadows objects elements).bind fun _ => .pure rfl
  | broken fault own => exact .throw own

private theorem Pieces.shadows (objects : includer.Objects) (pieces : Pieces) :
    Shadows includer (fun made => made.value.map Value.face) (pieces.run includer) (pieces.run silent) := by
  cases pieces with
  | none => exact .pure rfl
  | more space first others =>
    refine (Piece.shadows objects first).bind fun face => ?_
    refine (Pieces.shadows objects others).bind fun faces => .pure ?_
    simp only [List.map_append, List.map_cons, face, faces]

private theorem Phrase.shadows (objects : includer.Objects) (phrase : Phrase) :
    Shadows includer (fun made => made.value.map Value.face) (phrase.parts includer)
      (phrase.parts silent) := by
  cases phrase with
  | mk first others =>
    refine (Piece.shadows objects first).bind fun face => ?_
    refine (Pieces.shadows objects others).bind fun faces => .pure ?_
    simp only [List.map_cons, face, faces]

private theorem Field.shadows (objects : includer.Objects) (field : Field) :
    Shadows includer (fun _ => ()) (field.run includer) (field.run silent) := by
  cases field with
  | assign path phrase | append path phrase =>
    exact (join_shadows (Phrase.shadows objects phrase)).bind fun _ => .pure rfl
  | inclusion directive =>
    unfold Field.run
    rw [← bind_assoc, ← bind_assoc]
    refine (Shadows.directive objects directive).bind fun same => ?_
    exact (Shadows.ofExcept (asObject_alike same) asObject_local).bind fun _ => .pure rfl
  | broken fault own => exact .throw own

private theorem Fields.shadows (objects : includer.Objects) (fields : Fields) :
    Shadows includer (fun _ => ()) (fields.run includer) (fields.run silent) := by
  cases fields with
  | none => exact .pure rfl
  | more first others =>
    refine (Field.shadows objects first).bind fun _ => ?_
    exact (Fields.shadows objects others).bind fun _ => .pure rfl

private theorem Elements.shadows (objects : includer.Objects) (elements : Elements) :
    Shadows includer (fun _ => ()) (elements.run includer) (elements.run silent) := by
  cases elements with
  | none => exact .pure rfl
  | more first others =>
    refine (join_shadows (Phrase.shadows objects first)).bind fun _ => ?_
    exact (Elements.shadows objects others).bind fun _ => .pure rfl

end

end Grammar

section Parsing

variable {includer : Includer} {text : String} {session after : Session}

private theorem parse_shadows (objects : includer.Objects) (text : String) :
    Shadows includer (fun _ => ()) (parse includer text) (parse .silent text) := by
  obtain ⟨fields, outlined⟩ := parse_outline text
  rw [outlined includer objects, outlined .silent Includer.silent_objects]
  exact (Grammar.Fields.shadows objects fields).bind fun _ => .pure rfl

theorem answers_of_parse {document : Document} (objects : includer.Objects)
    (ran : parse includer text session = .ok document after) :
    ∀ directive ∈ directivesOf text, includer.Answers directive := by
  intro directive member
  obtain ⟨_, behind, mirror, _, answered⟩ := (parse_shadows objects text).answered .start ran
  rw [directivesOf, Run.outcome, mirror] at member
  exact (answered directive member).resolve_left (by simp [Session.asked, Session.history, Session.start])

theorem refuses_of_parse {path : String} (objects : includer.Objects)
    (ran : parse includer text session = .error (.includeCycle path) after) :
    ∃ directive ∈ directivesOf text, includer.Refuses directive (.includeCycle path) :=
  (parse_shadows objects text).refused .start ran

end Parsing
end Hocon
