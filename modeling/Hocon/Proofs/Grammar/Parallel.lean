import Hocon.Proofs.Include.Directives
import Hocon.Proofs.Renaming

/-! Runs side by side. A tree makes the same in any session, but for the numbers of its references,
and wherever its references stand, but for their places, as long as its directives are answered
alike. -/
namespace Hocon

open Value (rename)

/-- Two runs from related sessions both end well, with what looks the same and in related sessions,
or both fail. -/
def Parallel (related : Session → Session → Prop) {α ν : Type} (view : α → ν) (run other : Run α) : Prop :=
  ∀ first second, related first second →
    match run first, other second with
    | .ok made after, .ok mirrored behind => view made = view mirrored ∧ related after behind
    | .error .., .error .. => True
    | _, _ => False

namespace Parallel

variable {related : Session → Session → Prop} {α β ν μ : Type} {view : α → ν} {look : β → μ}
  {run other third : Run α}

private theorem pure {made mirrored : α} (same : view made = view mirrored) :
    Parallel related view (pure made) (pure mirrored) :=
  fun _ _ near => ⟨same, near⟩

theorem throw {fault : Fault} : Parallel related view (throw fault) (throw fault) := fun _ _ _ => trivial

private theorem ofExcept {outcome mirrored : Except Fault α} (same : outcome.map view = mirrored.map view) :
    Parallel related view (Run.ofExcept outcome) (Run.ofExcept mirrored) := by
  intro first second near
  cases outcome <;> cases mirrored <;> simp only [Except.map, Except.ok.injEq, reduceCtorEq] at same
  · trivial
  · exact ⟨same, near⟩

theorem bind {next further : α → Run β} (begins : Parallel related view run other)
    (goes : ∀ {made mirrored}, view made = view mirrored →
      Parallel related look (next made) (further mirrored)) :
    Parallel related look (run >>= next) (other >>= further) := by
  intro first second near
  have begun := begins first second near
  simp only [Bind.bind, EStateM.bind]
  cases ran : run first <;> cases mirror : other second <;> simp only [ran, mirror] at begun ⊢
  · exact goes begun.1 _ _ begun.2

theorem symm (equivalence : Equivalence related) (parallel : Parallel related view run other) :
    Parallel related view other run := by
  intro first second near
  have back := parallel second first (equivalence.symm near)
  cases ran : run second <;> cases mirror : other first <;> simp only [ran, mirror] at back ⊢
  · exact ⟨back.1.symm, equivalence.symm back.2⟩

theorem trans (equivalence : Equivalence related) (before : Parallel related view run other)
    (behind : Parallel related view other third) : Parallel related view run third := by
  intro first second near
  have begins := before first first (equivalence.refl first)
  have ends := behind first second near
  cases ran : run first <;> cases mirror : other first <;> cases last : third second <;>
    simp only [ran, mirror, last] at begins ends ⊢
  · exact ⟨begins.1.trans ends.1, equivalence.trans begins.2 ends.2⟩

theorem ok_of_ok {first second after : Session} {made : α} (parallel : Parallel related view run other)
    (near : related first second) (ran : run first = .ok made after) :
    ∃ mirrored behind, other second = .ok mirrored behind ∧ view made = view mirrored ∧ related after behind := by
  have both := parallel first second near
  cases mirror : other second with
  | ok mirrored behind =>
    simp only [ran, mirror] at both
    exact ⟨mirrored, behind, rfl, both.1, both.2⟩
  | error fault behind => simp only [ran, mirror] at both

theorem refl (view : α → ν) (run : Run α) : Parallel Eq view run run := by
  rintro first _ rfl
  cases run first <;> simp

end Parallel

/-- Sessions in which a reference looks the same, whatever its place. -/
structure Blurs (related : Session → Session → Prop) (f : Reference → Reference) : Prop where
  equivalence : Equivalence related
  reference : ∀ {first second : Session}, related first second → ∀ path optional place other,
    f ⟨first.nextId, path, optional, place⟩ = f ⟨second.nextId, path, optional, other⟩
  next : ∀ {first second : Session}, related first second →
    related { first with nextId := first.nextId + 1 } { second with nextId := second.nextId + 1 }

namespace Grammar

mutual

/-- The tree without the places of its references. -/
def Piece.unplaced : Piece → Piece
  | .text bare content => .text bare content
  | .reference path optional _ => .reference path optional .origin
  | .object fields => .object fields.unplaced
  | .array elements => .array elements.unplaced
  | .broken fault own => .broken fault own

def Pieces.unplaced : Pieces → Pieces
  | .none => .none
  | .more space first others => .more space first.unplaced others.unplaced

def Phrase.unplaced : Phrase → Phrase
  | .mk first others => .mk first.unplaced others.unplaced

def Field.unplaced : Field → Field
  | .assign path phrase => .assign path phrase.unplaced
  | .append path phrase => .append path phrase.unplaced
  | .inclusion directive => .inclusion directive
  | .broken fault own => .broken fault own

def Fields.unplaced : Fields → Fields
  | .none => .none
  | .more first others => .more first.unplaced others.unplaced

def Elements.unplaced : Elements → Elements
  | .none => .none
  | .more first others => .more first.unplaced others.unplaced

end

mutual

/-- The directives of a tree, in order. -/
def Piece.directives : Piece → List Directive
  | .object fields => fields.directives
  | .array elements => elements.directives
  | .text .. | .reference .. | .broken .. => []

def Pieces.directives : Pieces → List Directive
  | .none => []
  | .more _ first others => first.directives ++ others.directives

def Phrase.directives : Phrase → List Directive
  | .mk first others => first.directives ++ others.directives

def Field.directives : Field → List Directive
  | .assign _ phrase | .append _ phrase => phrase.directives
  | .inclusion directive => [directive]
  | .broken .. => []

def Fields.directives : Fields → List Directive
  | .none => []
  | .more first others => first.directives ++ others.directives

def Elements.directives : Elements → List Directive
  | .none => []
  | .more first others => first.directives ++ others.directives

end

mutual

private theorem Piece.directives_unplaced (piece : Piece) : piece.unplaced.directives = piece.directives := by
  cases piece with
  | text | reference | broken => rfl
  | object fields => exact Fields.directives_unplaced fields
  | array elements => exact Elements.directives_unplaced elements

private theorem Pieces.directives_unplaced (pieces : Pieces) :
    pieces.unplaced.directives = pieces.directives := by
  cases pieces with
  | none => rfl
  | more space first others =>
    exact congrArg₂ (· ++ ·) (Piece.directives_unplaced first) (Pieces.directives_unplaced others)

private theorem Phrase.directives_unplaced (phrase : Phrase) :
    phrase.unplaced.directives = phrase.directives := by
  cases phrase with
  | mk first others =>
    exact congrArg₂ (· ++ ·) (Piece.directives_unplaced first) (Pieces.directives_unplaced others)

private theorem Field.directives_unplaced (field : Field) : field.unplaced.directives = field.directives := by
  cases field with
  | assign path phrase | append path phrase => exact Phrase.directives_unplaced phrase
  | inclusion | broken => rfl

private theorem Fields.directives_unplaced (fields : Fields) :
    fields.unplaced.directives = fields.directives := by
  cases fields with
  | none => rfl
  | more first others =>
    exact congrArg₂ (· ++ ·) (Field.directives_unplaced first) (Fields.directives_unplaced others)

private theorem Elements.directives_unplaced (elements : Elements) :
    elements.unplaced.directives = elements.directives := by
  cases elements with
  | none => rfl
  | more first others =>
    exact congrArg₂ (· ++ ·) (Phrase.directives_unplaced first) (Elements.directives_unplaced others)

end

private theorem Phrase.isBare_unplaced (phrase : Phrase) : phrase.unplaced.isBare = phrase.isBare := by
  obtain ⟨first, others⟩ := phrase
  cases first <;> rfl

section

variable (f : Reference → Reference)

def Made.viewValue (made : Made Value) : Value × List Reference :=
  (made.value.rename f, made.references.map f)

def Made.viewValues (made : Made (List Value)) : List Value × List Reference :=
  (made.value.map (rename f), made.references.map f)

def Made.viewEntry (made : Made Entry) : Entry × List Reference :=
  (made.value.rename f, made.references.map f)

def Made.viewEntries (made : Made (List Entry)) : List Entry × List Reference :=
  (made.value.map (Entry.rename f), made.references.map f)

/-- A directive is handed over to both with answers that look the same. -/
def Answered (related : Session → Session → Prop) (includer other : Includer) (directive : Directive) : Prop :=
  Parallel related (fun root : Root => (root.value.rename f, root.references.map f))
    (Run.note (.asked directive) >>= fun _ => includer directive)
    (Run.note (.asked directive) >>= fun _ => other directive)

end

variable {related : Session → Session → Prop} {f : Reference → Reference} {includer other : Includer}

private theorem join_parallel {bare : Bool} {parts mirrored : Run (Made (List Value))}
    (gathered : Parallel related (Made.viewValues f) parts mirrored) :
    Parallel related (Made.viewValue f) (join bare parts) (join bare mirrored) := by
  refine gathered.bind fun {made again} same => ?_
  obtain ⟨values, references⟩ := Prod.mk.inj same
  have joined : (joinPieces bare made.value).map (rename f) = (joinPieces bare again.value).map (rename f) := by
    rw [joinPieces_rename, joinPieces_rename, values]
  exact (Parallel.ofExcept joined).bind fun value => .pure (by rw [Made.viewValue, value, references]; rfl)

/-- One that is made, behind what leads it, and the others that are made after it. -/
private theorem gather_parallel {α ν : Type} {first mirrored : Run (Made α)}
    {others images : Run (Made (List α))}
    (lead : List α) (view : α → ν)
    (here : Parallel related (fun made => (view made.value, made.references.map f)) first mirrored)
    (behind : Parallel related (fun made => (made.value.map view, made.references.map f)) others images) :
    Parallel related (fun made : Made (List α) => (made.value.map view, made.references.map f))
      (do
        let made ← first
        let further ← others
        return ⟨lead ++ made.value :: further.value, made.references ++ further.references⟩)
      (do
        let made ← mirrored
        let further ← images
        return ⟨lead ++ made.value :: further.value, made.references ++ further.references⟩) := by
  refine here.bind fun {made again} same => behind.bind fun {further rest} more => .pure ?_
  obtain ⟨value, references⟩ := Prod.mk.inj same
  obtain ⟨values, remaining⟩ := Prod.mk.inj more
  simp only [List.map_append, List.map_cons, value, references, values, remaining]

private theorem asObject_rename (value : Value) :
    value.asObject.map (Value.renameFields f) = (value.rename f).asObject := by
  cases value <;> rfl

mutual

theorem Piece.parallel (blurs : Blurs related f) (piece : Piece)
    (answered : ∀ directive ∈ piece.directives, Answered f related includer other directive) :
    Parallel related (Made.viewValue f) (piece.run includer) (piece.unplaced.run other) := by
  cases piece with
  | text bare content => exact .pure rfl
  | reference path optional place =>
    intro first second near
    have same := blurs.reference near path.toList optional place .origin
    exact ⟨by simp [Made.viewValue, rename, same], blurs.next near⟩
  | object fields =>
    refine (Fields.parallel blurs fields answered).bind fun {made again} same => .pure ?_
    obtain ⟨values, references⟩ := Prod.mk.inj same
    simp only [Made.viewValue, rename, Entry.rename_build, values, references]
  | array elements =>
    refine (Elements.parallel blurs elements answered).bind fun {made again} same => .pure ?_
    obtain ⟨values, references⟩ := Prod.mk.inj same
    simp only [Made.viewValue, rename, Value.renameItems_eq, values, references]
  | broken fault own => exact .throw

private theorem Pieces.parallel (blurs : Blurs related f) (pieces : Pieces)
    (answered : ∀ directive ∈ pieces.directives, Answered f related includer other directive) :
    Parallel related (Made.viewValues f) (pieces.run includer) (pieces.unplaced.run other) := by
  cases pieces with
  | none => exact .pure rfl
  | more space first others =>
    obtain ⟨here, behind⟩ := List.forall_mem_append.mp answered
    exact gather_parallel _ (rename f) (Piece.parallel blurs first here) (Pieces.parallel blurs others behind)

private theorem Phrase.parallel (blurs : Blurs related f) (phrase : Phrase)
    (answered : ∀ directive ∈ phrase.directives, Answered f related includer other directive) :
    Parallel related (Made.viewValues f) (phrase.parts includer) (phrase.unplaced.parts other) := by
  cases phrase with
  | mk first others =>
    obtain ⟨here, behind⟩ := List.forall_mem_append.mp answered
    exact gather_parallel [] (rename f) (Piece.parallel blurs first here) (Pieces.parallel blurs others behind)

private theorem Field.parallel (blurs : Blurs related f) (field : Field)
    (answered : ∀ directive ∈ field.directives, Answered f related includer other directive) :
    Parallel related (Made.viewEntry f) (field.run includer) (field.unplaced.run other) := by
  cases field with
  | assign path phrase | append path phrase =>
    rw [Field.unplaced, Field.run, Field.run, Phrase.isBare_unplaced]
    refine (join_parallel (Phrase.parallel blurs phrase answered)).bind fun {made again} same => .pure ?_
    obtain ⟨value, references⟩ := Prod.mk.inj same
    simp only [Made.viewEntry, Entry.rename, value, references]
  | inclusion directive =>
    rw [Field.unplaced, Field.run, Field.run, ← bind_assoc, ← bind_assoc]
    refine (answered directive List.mem_cons_self).bind fun {root again} same => ?_
    obtain ⟨value, references⟩ := Prod.mk.inj same
    have objects : root.value.asObject.map (Value.renameFields f) =
        again.value.asObject.map (Value.renameFields f) := by
      rw [asObject_rename, asObject_rename, value]
    refine (Parallel.ofExcept objects).bind fun {fields more} alike => .pure ?_
    simp only [Made.viewEntry, Entry.rename, alike, references]
  | broken fault own => exact .throw

private theorem Fields.parallel (blurs : Blurs related f) (fields : Fields)
    (answered : ∀ directive ∈ fields.directives, Answered f related includer other directive) :
    Parallel related (Made.viewEntries f) (fields.run includer) (fields.unplaced.run other) := by
  cases fields with
  | none => exact .pure rfl
  | more first others =>
    obtain ⟨here, behind⟩ := List.forall_mem_append.mp answered
    exact gather_parallel [] (Entry.rename f) (Field.parallel blurs first here)
      (Fields.parallel blurs others behind)

private theorem Elements.parallel (blurs : Blurs related f) (elements : Elements)
    (answered : ∀ directive ∈ elements.directives, Answered f related includer other directive) :
    Parallel related (Made.viewValues f) (elements.run includer) (elements.unplaced.run other) := by
  cases elements with
  | none => exact .pure rfl
  | more first others =>
    obtain ⟨here, behind⟩ := List.forall_mem_append.mp answered
    rw [Elements.unplaced, Elements.run, Elements.run, Phrase.isBare_unplaced]
    exact gather_parallel [] (rename f) (join_parallel (Phrase.parallel blurs first here))
      (Elements.parallel blurs others behind)

end

/-- Trees that differ in the places of their references make the same. -/
theorem Fields.parallel_of_unplaced (blurs : Blurs related f) {fields again : Fields}
    (same : again.unplaced = fields.unplaced)
    (answered : ∀ directive ∈ fields.directives, Answered f related includer other directive) :
    Parallel related (Made.viewEntries f) (fields.run includer) (again.run other) := by
  have asked : again.directives = fields.directives := by
    rw [← Fields.directives_unplaced, same, Fields.directives_unplaced]
  have mirrored : Parallel related (Made.viewEntries f) (again.run other) (again.unplaced.run other) := by
    refine Fields.parallel blurs again fun directive member => ?_
    have alike : Answered f related includer other directive := answered directive (asked ▸ member)
    exact (alike.symm blurs.equivalence).trans blurs.equivalence alike
  have run := Fields.parallel blurs fields answered
  rw [← same] at run
  exact run.trans blurs.equivalence (mirrored.symm blurs.equivalence)

mutual

/-- With nothing for an answer, a tree asks for its own directives. -/
private theorem Piece.asked_of_run {piece : Piece} {session after : Session} {made : Made Value}
    (ran : piece.run .silent session = .ok made after) : after.asked = session.asked ++ piece.directives := by
  cases piece with
  | text | reference =>
    cases ran
    exact (List.append_nil _).symm
  | broken => cases ran
  | object fields =>
    obtain ⟨inside, middle, ran, done⟩ := Run.ok_of_bind ran
    cases done
    exact Fields.asked_of_run ran
  | array elements =>
    obtain ⟨inside, middle, ran, done⟩ := Run.ok_of_bind ran
    cases done
    exact Elements.asked_of_run ran

private theorem Pieces.asked_of_run {pieces : Pieces} {session after : Session} {made : Made (List Value)}
    (ran : pieces.run .silent session = .ok made after) : after.asked = session.asked ++ pieces.directives := by
  cases pieces with
  | none =>
    cases ran
    exact (List.append_nil _).symm
  | more space first others =>
    obtain ⟨own, middle, firsts, ran⟩ := Run.ok_of_bind ran
    obtain ⟨further, last, rest, done⟩ := Run.ok_of_bind ran
    cases done
    rw [Pieces.asked_of_run rest, Piece.asked_of_run firsts, List.append_assoc]
    rfl

private theorem Phrase.asked_of_parts {phrase : Phrase} {session after : Session} {made : Made (List Value)}
    (ran : phrase.parts .silent session = .ok made after) : after.asked = session.asked ++ phrase.directives := by
  cases phrase with
  | mk first others =>
    obtain ⟨own, middle, firsts, ran⟩ := Run.ok_of_bind ran
    obtain ⟨further, last, rest, done⟩ := Run.ok_of_bind ran
    cases done
    rw [Pieces.asked_of_run rest, Piece.asked_of_run firsts, List.append_assoc]
    rfl

private theorem Phrase.asked_of_run {phrase : Phrase} {session after : Session} {made : Made Value}
    (ran : join phrase.isBare (phrase.parts .silent) session = .ok made after) :
    after.asked = session.asked ++ phrase.directives := by
  obtain ⟨parts, middle, gathered, ran⟩ := Run.ok_of_bind ran
  obtain ⟨value, last, joined, done⟩ := Run.ok_of_bind ran
  cases done
  rw [(Run.ok_of_ofExcept joined).2, Phrase.asked_of_parts gathered]

private theorem Field.asked_of_run {field : Field} {session after : Session} {made : Made Entry}
    (ran : field.run .silent session = .ok made after) : after.asked = session.asked ++ field.directives := by
  cases field with
  | assign path phrase | append path phrase =>
    obtain ⟨value, middle, ran, done⟩ := Run.ok_of_bind ran
    cases done
    exact Phrase.asked_of_run ran
  | inclusion directive =>
    cases ran
    exact Session.asked_note session directive
  | broken => cases ran

theorem Fields.asked_of_run {fields : Fields} {session after : Session} {made : Made (List Entry)}
    (ran : fields.run .silent session = .ok made after) : after.asked = session.asked ++ fields.directives := by
  cases fields with
  | none =>
    cases ran
    exact (List.append_nil _).symm
  | more first others =>
    obtain ⟨own, middle, firsts, ran⟩ := Run.ok_of_bind ran
    obtain ⟨further, last, rest, done⟩ := Run.ok_of_bind ran
    cases done
    rw [Fields.asked_of_run rest, Field.asked_of_run firsts, List.append_assoc]
    rfl

private theorem Elements.asked_of_run {elements : Elements} {session after : Session} {made : Made (List Value)}
    (ran : elements.run .silent session = .ok made after) :
    after.asked = session.asked ++ elements.directives := by
  cases elements with
  | none =>
    cases ran
    exact (List.append_nil _).symm
  | more first others =>
    obtain ⟨own, middle, firsts, ran⟩ := Run.ok_of_bind ran
    obtain ⟨further, last, rest, done⟩ := Run.ok_of_bind ran
    cases done
    rw [Elements.asked_of_run rest, Phrase.asked_of_run firsts, List.append_assoc]
    rfl

end

end Grammar
end Hocon
