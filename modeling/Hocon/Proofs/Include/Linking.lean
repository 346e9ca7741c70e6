import Hocon.Proofs.Include.Steps
import Hocon.Proofs.Loading
import Hocon.Proofs.References

/-! The references of a document and the list of them. Through parsing, merging and including,
also of one file more than once, every reference in the value is listed, no two that are listed
have one number, and none is in the value twice. -/
namespace Hocon

open Include (World Site)
open Value (fieldReferences itemReferences)

/-- The references in what a run makes, and those it lists: each that is used is listed, and the
numbers of the listed ones were free before the run. -/
structure Linked (used listed : List Reference) (first next : Nat) : Prop where
  grown : first ≤ next
  numbered : ∀ reference ∈ listed, first ≤ reference.id ∧ reference.id < next
  distinct : (listed.map (·.id)).Nodup
  kept : used.Subperm listed

namespace Linked

variable {used listed more others : List Reference} {first middle next : Nat}

theorem none (first : Nat) : Linked [] [] first first :=
  ⟨Nat.le_refl first, by simp, by simp, .refl []⟩

private theorem append (linked : Linked used listed first middle) (further : Linked more others middle next) :
    Linked (used ++ more) (listed ++ others) first next where
  grown := Nat.le_trans linked.grown further.grown
  numbered := by
    have grown := linked.grown
    have behind := further.grown
    refine List.forall_mem_append.mpr ⟨fun reference member => ?_, fun reference member => ?_⟩
    · have range := linked.numbered reference member
      omega
    · have range := further.numbered reference member
      omega
  distinct := by
    rw [List.map_append, List.nodup_append]
    refine ⟨linked.distinct, further.distinct, ?_⟩
    intro id member other present same
    obtain ⟨early, early_listed, rfl⟩ := List.mem_map.mp member
    obtain ⟨late, late_listed, rfl⟩ := List.mem_map.mp present
    have before := (linked.numbered early early_listed).2
    have behind := (further.numbered late late_listed).1
    omega
  kept := linked.kept.append further.kept

private theorem fewer (linked : Linked used listed first next) (less : more.Subperm used) :
    Linked more listed first next :=
  ⟨linked.grown, linked.numbered, linked.distinct, less.trans linked.kept⟩

/-- Nothing is used twice. -/
private theorem once (linked : Linked used listed first next) : (used.map (·.id)).Nodup := by
  obtain ⟨among, same, sub⟩ := linked.kept
  have apart : (among.map (·.id)).Nodup := linked.distinct.sublist (sub.map (·.id))
  exact (same.map (·.id)).nodup_iff.mp apart

end Linked

/-- An includer that answers with linked documents. -/
def Includer.Links (includer : Includer) : Prop :=
  ∀ {directive : Directive} {session after : Session} {root : Root},
    includer directive session = .ok root after →
      Linked root.value.references root.references session.nextId after.nextId

namespace Grammar

variable {includer : Includer}

private theorem join_links {bare : Bool} {parts : Run (Made (List Value))} {session after : Session}
    {made : Made Value}
    (linked : ∀ {values middle}, parts session = .ok values middle →
      Linked (itemReferences values.value) values.references session.nextId middle.nextId)
    (ran : join bare parts session = .ok made after) :
    Linked made.value.references made.references session.nextId after.nextId := by
  obtain ⟨values, middle, gathered, ran⟩ := Run.ok_of_bind ran
  obtain ⟨value, last, whole, done⟩ := Run.ok_of_bind ran
  obtain ⟨joined, rfl⟩ := Run.ok_of_ofExcept whole
  cases done
  exact (linked gathered).fewer (Value.references_joinPieces joined)

mutual

private theorem Piece.links {piece : Piece} {session after : Session} {made : Made Value}
    (answered : includer.Links) (ran : piece.run includer session = .ok made after) :
    Linked made.value.references made.references session.nextId after.nextId := by
  cases piece with
  | text bare content =>
    cases ran
    exact .none session.nextId
  | reference path optional place =>
    cases ran
    exact ⟨Nat.le_succ _, by simp, by simp, .refl _⟩
  | object fields =>
    obtain ⟨inside, middle, ran, done⟩ := Run.ok_of_bind ran
    cases done
    exact (Fields.links answered ran).fewer (Entry.fieldReferences_build inside.value)
  | array elements =>
    obtain ⟨inside, middle, ran, done⟩ := Run.ok_of_bind ran
    cases done
    exact Elements.links answered ran
  | broken fault own => cases ran

private theorem Pieces.links {pieces : Pieces} {session after : Session} {made : Made (List Value)}
    (answered : includer.Links) (ran : pieces.run includer session = .ok made after) :
    Linked (itemReferences made.value) made.references session.nextId after.nextId := by
  cases pieces with
  | none =>
    cases ran
    exact .none session.nextId
  | more space first others =>
    obtain ⟨own, middle, firsts, ran⟩ := Run.ok_of_bind ran
    obtain ⟨further, last, rest, ran⟩ := Run.ok_of_bind ran
    cases ran
    have whole : itemReferences ((if space != "" then [Value.text space] else []) ++
        own.value :: further.value) = own.value.references ++ itemReferences further.value := by
      split <;> rfl
    rw [whole]
    exact (Piece.links answered firsts).append (Pieces.links answered rest)

private theorem Phrase.links {phrase : Phrase} {session after : Session} {made : Made (List Value)}
    (answered : includer.Links) (ran : phrase.parts includer session = .ok made after) :
    Linked (itemReferences made.value) made.references session.nextId after.nextId := by
  cases phrase with
  | mk first others =>
    obtain ⟨own, middle, firsts, ran⟩ := Run.ok_of_bind ran
    obtain ⟨further, last, rest, ran⟩ := Run.ok_of_bind ran
    cases ran
    exact (Piece.links answered firsts).append (Pieces.links answered rest)

private theorem Field.links {field : Field} {session after : Session} {made : Made Entry}
    (answered : includer.Links) (ran : field.run includer session = .ok made after) :
    Linked made.value.references made.references session.nextId after.nextId := by
  cases field with
  | assign path phrase | append path phrase =>
    obtain ⟨value, middle, ran, done⟩ := Run.ok_of_bind ran
    cases done
    exact join_links (Phrase.links answered) ran
  | inclusion directive =>
    obtain ⟨_, middle, noted, ran⟩ := Run.ok_of_bind ran
    obtain ⟨root, last, answer, ran⟩ := Run.ok_of_bind ran
    obtain ⟨fields, _, asked, done⟩ := Run.ok_of_bind ran
    obtain ⟨object, rfl⟩ := Run.ok_of_ofExcept asked
    cases noted
    cases done
    have linked := answered answer
    obtain ⟨value, references⟩ := root
    cases value <;> cases object
    exact linked
  | broken fault own => cases ran

private theorem Fields.links {fields : Fields} {session after : Session} {made : Made (List Entry)}
    (answered : includer.Links) (ran : fields.run includer session = .ok made after) :
    Linked (made.value.flatMap Entry.references) made.references session.nextId after.nextId := by
  cases fields with
  | none =>
    cases ran
    exact .none session.nextId
  | more first others =>
    obtain ⟨own, middle, firsts, ran⟩ := Run.ok_of_bind ran
    obtain ⟨further, last, rest, ran⟩ := Run.ok_of_bind ran
    cases ran
    exact (Field.links answered firsts).append (Fields.links answered rest)

private theorem Elements.links {elements : Elements} {session after : Session} {made : Made (List Value)}
    (answered : includer.Links) (ran : elements.run includer session = .ok made after) :
    Linked (itemReferences made.value) made.references session.nextId after.nextId := by
  cases elements with
  | none =>
    cases ran
    exact .none session.nextId
  | more first others =>
    obtain ⟨own, middle, firsts, ran⟩ := Run.ok_of_bind ran
    obtain ⟨further, last, rest, ran⟩ := Run.ok_of_bind ran
    cases ran
    exact (join_links (Phrase.links answered) firsts).append (Elements.links answered rest)

end

end Grammar

/-- A text whose directives are answered by linked documents is read as one. -/
theorem parse_links {includer : Includer} {text : String} {session after : Session} {document : Document}
    (objects : includer.Objects) (answered : includer.Links)
    (ran : parse includer text session = .ok document after) :
    Linked (fieldReferences document.fields) document.references session.nextId after.nextId := by
  obtain ⟨tree, outlined⟩ := parse_outline text
  rw [outlined includer objects] at ran
  obtain ⟨made, middle, ran, done⟩ := Run.ok_of_bind ran
  cases done
  exact (Grammar.Fields.links answered ran).fewer (Entry.fieldReferences_build made.value)

namespace Include

open Files (FilePath)

private theorem gathered_links {loads : FilePath → Run Document} {files : List FilePath}
    {merged result : Document} {session after : Session} {first : Nat}
    (loaded : ∀ {file before document behind}, loads file before = .ok document behind →
      Linked (fieldReferences document.fields) document.references before.nextId behind.nextId)
    (linked : Linked (fieldReferences merged.fields) merged.references first session.nextId)
    (ran : files.foldlM (gather loads) merged session = .ok result after) :
    Linked (fieldReferences result.fields) result.references first after.nextId := by
  induction files generalizing merged session with
  | nil =>
    cases ran
    exact linked
  | cons file files ih =>
    rw [List.foldlM_cons] at ran
    obtain ⟨further, middle, one, ran⟩ := Run.ok_of_bind ran
    obtain ⟨_, before, noted, one⟩ := Run.ok_of_bind one
    obtain ⟨document, behind, read, made⟩ := Run.ok_of_bind one
    cases noted
    cases made
    have own := loaded read
    have both := linked.append own
    exact ih (both.fewer (Object.fieldReferences_merge merged.fields document.fields)) ran

/-- What is answered from files is linked, however often one of them is read. -/
private theorem answer_links (world : World) (site : Site) : Includer.Links (answer world site) := by
  induction site using Site.induct world.files with
  | step site inside =>
  intro directive session after root ran
  rw [answer_eq] at ran
  obtain ⟨files, merged, before, _, gathered, same, rfl⟩ := gathered_of_answer ran
  rw [← same]
  have begun : Linked (fieldReferences []) [] before.nextId before.nextId := .none before.nextId
  refine gathered_links ?_ begun gathered
  intro file before document behind loaded
  rw [load_eq] at loaded
  obtain ⟨fresh, text, read, parsed⟩ := parsed_of_load loaded
  exact parse_links (answer_objects world _) (inside file text fresh read) parsed

end Include

/-- A text that is read with what it includes lists its references by different numbers, has each
reference of its value listed, and has none in the value twice. -/
theorem parse_links_references (world : World) (site : Site) (text : String) (session : Session)
    (document : Document)
    (done : ((parse (Include.answer world site) text).outcome session).1 = .ok document) :
    (document.references.map (·.id)).Nodup ∧
      (∀ reference ∈ document.root.value.references, reference ∈ document.references) ∧
      (document.root.value.references.map (·.id)).Nodup := by
  obtain ⟨after, ran⟩ := Run.ok_of_outcome done
  have linked := parse_links (Include.answer_objects world site) (Include.answer_links world site) ran
  exact ⟨linked.distinct, linked.kept.subset, linked.once⟩

/-- One file is read for two directives here. -/
def sharedTwice : String :=
  "left \x7b include \"shared.conf\" \x7d\nright \x7b include \"shared.conf\" \x7d\nright.list += $\x7bleft\x7d"

/-- Each reading of a shared file has references of its own. -/
theorem parse_links_shared : ∃ document,
    ((parse (Include.answer .diamond (.ofFolder ⟨""⟩)) sharedTwice).outcome .start).1 = .ok document ∧
      (document.references.map (·.id)).Nodup ∧
      (∀ reference ∈ document.root.value.references, reference ∈ document.references) ∧
      (document.root.value.references.map (·.id)).Nodup := by
  have good : ((parse (Include.answer .diamond (.ofFolder ⟨""⟩)) sharedTwice).outcome .start).1.isOk = true := by
    decide +kernel
  obtain ⟨document, done⟩ := ok_of_isOk good
  exact ⟨document, done, parse_links_references _ _ _ _ document done⟩

end Hocon
