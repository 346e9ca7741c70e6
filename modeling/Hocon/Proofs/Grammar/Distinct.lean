import Hocon.Proofs.Grammar.Tree
import Hocon.Proofs.Merging
import Hocon.Proofs.Run

namespace Hocon

namespace Value

private theorem keysDistinct_append {first second joined : Value} (done : append first second = .ok joined)
    (own : first.keysDistinct = true) (other : second.keysDistinct = true) : joined.keysDistinct = true := by
  unfold append at done
  split at done <;> cases done
  · rfl
  · simp only [keysDistinct, itemsKeysDistinct_eq, List.all_append, Bool.and_eq_true] at own other ⊢
    exact ⟨own, other⟩
  · exact keysDistinct_merge _ _ own (Bool.and_eq_true_iff.mp other).2

private theorem keysDistinct_foldlM {first joined : Value} {rest : List Value}
    (done : rest.foldlM append first = .ok joined) (own : first.keysDistinct = true)
    (others : ∀ piece ∈ rest, piece.keysDistinct = true) : joined.keysDistinct = true := by
  induction rest generalizing first with
  | nil =>
    cases done
    exact own
  | cons next rest ih =>
    obtain ⟨head, behind⟩ := List.forall_mem_cons.mp others
    rw [List.foldlM_cons] at done
    obtain ⟨middle, begun, done⟩ := ok_of_bind done
    exact ih done (keysDistinct_append begun own head) behind

private theorem keysDistinct_concatenate {pieces : List Value} {joined : Value}
    (done : concatenate pieces = .ok joined)
    (own : ∀ piece ∈ pieces, piece.keysDistinct = true) : joined.keysDistinct = true := by
  have kept : ∀ piece ∈ significant pieces, piece.keysDistinct = true := by
    intro piece member
    unfold significant at member
    split at member
    · exact own piece (List.mem_filter.mp member).1
    · exact own piece member
  unfold concatenate at done
  split at done
  case h_1 =>
    cases done
    rfl
  case h_2 first rest whole =>
    rw [whole] at kept
    obtain ⟨head, others⟩ := List.forall_mem_cons.mp kept
    exact keysDistinct_foldlM done head others

end Value

private theorem keysDistinct_joinPieces {bare : Bool} {pieces : List Value} {joined : Value}
    (done : joinPieces bare pieces = .ok joined) (own : ∀ piece ∈ pieces, piece.keysDistinct = true) :
    joined.keysDistinct = true := by
  unfold joinPieces at done
  split at done
  case h_1 =>
    cases done
    split <;> rfl
  case h_2 =>
    cases done
    exact own joined List.mem_cons_self
  case h_3 =>
    split at done
    case isTrue =>
      cases done
      rw [Value.keysDistinct, Value.itemsKeysDistinct_eq]
      exact List.all_eq_true.mpr own
    case isFalse => exact Value.keysDistinct_concatenate done own

/-- What it answers with holds every key once. -/
def Includer.Distinct (includer : Includer) : Prop :=
  ∀ {directive : Directive} {session after : Session} {root : Root},
    includer directive session = .ok root after → root.value.keysDistinct = true

namespace Grammar

variable {includer : Includer} {session after : Session}

private theorem join_distinct {bare : Bool} {parts : Run (Made (List Value))} {made : Made Value}
    (ran : join bare parts session = .ok made after)
    (own : ∀ {gathered middle}, parts session = .ok gathered middle →
      ∀ piece ∈ gathered.value, piece.keysDistinct = true) : made.value.keysDistinct = true := by
  obtain ⟨gathered, middle, first, ran⟩ := Run.ok_of_bind ran
  obtain ⟨value, last, joined, done⟩ := Run.ok_of_bind ran
  cases done
  exact keysDistinct_joinPieces (Run.ok_of_ofExcept joined).1 (own first)

mutual

private theorem Piece.distinct_of_run (answers : includer.Distinct) {piece : Piece} {session after : Session}
    {made : Made Value} (ran : piece.run includer session = .ok made after) : made.value.keysDistinct = true := by
  cases piece with
  | text | reference =>
    cases ran
    rfl
  | broken => cases ran
  | object fields =>
    obtain ⟨inside, middle, ran, done⟩ := Run.ok_of_bind ran
    cases done
    exact Entry.keysDistinct_build (Fields.distinct_of_run answers ran)
  | array elements =>
    obtain ⟨inside, middle, ran, done⟩ := Run.ok_of_bind ran
    cases done
    rw [Value.keysDistinct, Value.itemsKeysDistinct_eq]
    exact List.all_eq_true.mpr (Elements.distinct_of_run answers ran)

private theorem Pieces.distinct_of_run (answers : includer.Distinct) {pieces : Pieces} {session after : Session}
    {made : Made (List Value)} (ran : pieces.run includer session = .ok made after) :
    ∀ piece ∈ made.value, piece.keysDistinct = true := by
  cases pieces with
  | none =>
    cases ran
    simp
  | more space first others =>
    obtain ⟨own, middle, firsts, ran⟩ := Run.ok_of_bind ran
    obtain ⟨further, last, rest, done⟩ := Run.ok_of_bind ran
    cases done
    have blank : ∀ piece ∈ (if space != "" then [Value.text space] else []), piece.keysDistinct = true := by
      split <;> simp [Value.keysDistinct]
    refine List.forall_mem_append.mpr ⟨blank, List.forall_mem_cons.mpr ⟨?_, ?_⟩⟩
    · exact Piece.distinct_of_run answers firsts
    · exact Pieces.distinct_of_run answers rest

private theorem Phrase.distinct_of_parts (answers : includer.Distinct) {phrase : Phrase} {session after : Session}
    {made : Made (List Value)} (ran : phrase.parts includer session = .ok made after) :
    ∀ piece ∈ made.value, piece.keysDistinct = true := by
  cases phrase with
  | mk first others =>
    obtain ⟨own, middle, firsts, ran⟩ := Run.ok_of_bind ran
    obtain ⟨further, last, rest, done⟩ := Run.ok_of_bind ran
    cases done
    exact List.forall_mem_cons.mpr ⟨Piece.distinct_of_run answers firsts, Pieces.distinct_of_run answers rest⟩

private theorem Field.distinct_of_run (answers : includer.Distinct) {field : Field} {session after : Session}
    {made : Made Entry} (ran : field.run includer session = .ok made after) : made.value.keysDistinct = true := by
  cases field with
  | assign path phrase | append path phrase =>
    obtain ⟨value, middle, ran, done⟩ := Run.ok_of_bind ran
    cases done
    exact join_distinct ran fun gathered => Phrase.distinct_of_parts answers gathered
  | inclusion directive =>
    obtain ⟨_, noted, _, ran⟩ := Run.ok_of_bind ran
    obtain ⟨root, answered, asked, ran⟩ := Run.ok_of_bind ran
    obtain ⟨fields, last, object, done⟩ := Run.ok_of_bind ran
    cases done
    have own := answers asked
    have object := (Run.ok_of_ofExcept object).1
    cases value : root.value <;> rw [value] at own object <;> cases object
    exact own
  | broken => cases ran

theorem Fields.distinct_of_run (answers : includer.Distinct) {fields : Fields} {session after : Session}
    {made : Made (List Entry)} (ran : fields.run includer session = .ok made after) :
    ∀ entry ∈ made.value, entry.keysDistinct = true := by
  cases fields with
  | none =>
    cases ran
    simp
  | more first others =>
    obtain ⟨own, middle, firsts, ran⟩ := Run.ok_of_bind ran
    obtain ⟨further, last, rest, done⟩ := Run.ok_of_bind ran
    cases done
    exact List.forall_mem_cons.mpr ⟨Field.distinct_of_run answers firsts, Fields.distinct_of_run answers rest⟩

private theorem Elements.distinct_of_run (answers : includer.Distinct) {elements : Elements} {session after : Session}
    {made : Made (List Value)} (ran : elements.run includer session = .ok made after) :
    ∀ piece ∈ made.value, piece.keysDistinct = true := by
  cases elements with
  | none =>
    cases ran
    simp
  | more first others =>
    obtain ⟨own, middle, firsts, ran⟩ := Run.ok_of_bind ran
    obtain ⟨further, last, rest, done⟩ := Run.ok_of_bind ran
    cases done
    refine List.forall_mem_cons.mpr ⟨?_, Elements.distinct_of_run answers rest⟩
    exact join_distinct firsts fun gathered => Phrase.distinct_of_parts answers gathered

end

end Grammar
end Hocon
