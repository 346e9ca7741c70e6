import Hocon.Document.Key
import Hocon.Proofs.Grammar.Lexemes

namespace Hocon

/-- What a key is made of. -/
def Token.isWord : Token → Bool
  | .unquoted _ | .quoted _ => true
  | _ => false

/-- What goes on with a field behind its key. -/
def Token.isMark : Token → Bool
  | .colon | .equals | .plusEquals | .leftBrace => true
  | _ => false

namespace Grammar

/-- A character of a key outside quotes, or a quoted part as a whole. -/
inductive Atom where
  | bare (c : Char)
  | quoted (text : String)
deriving DecidableEq

def Atom.content : Atom → List Char
  | .bare c => [c]
  | .quoted text => text.toList

/-- What a token adds to a key. -/
def atoms : Token → List Atom
  | .unquoted text => text.toList.map .bare
  | .quoted text => [.quoted text]
  | _ => []

/-- The text of a segment, quoted or not. -/
def spelled (segment : List Atom) : String := String.ofList (segment.flatMap Atom.content)

/-- The segments of a key. -/
def segments (lexemes : List Lexeme) : List (List Atom) :=
  (lexemes.flatMap (atoms ·.token)).splitOn (.bare '.')

/-- Lexemes that make a key. No segment has nothing in it, not even quotes. -/
structure Key (lexemes : List Lexeme) (path : KeyPath) : Prop where
  begun : lexemes ≠ []
  words : ∀ lexeme ∈ lexemes, lexeme.token.isWord = true
  adjacent : ∀ lexeme ∈ lexemes.tail, lexeme.isSpaced = false
  proper : [] ∉ segments lexemes
  named : path.toList = (segments lexemes).map spelled

private theorem spelled_bare (segment : List Atom) (c : Char) :
    spelled (segment ++ [.bare c]) = (spelled segment).push c := by
  apply String.toList_inj.mp
  simp [spelled, Atom.content]

private theorem spelled_quoted (segment : List Atom) (text : String) :
    spelled (segment ++ [.quoted text]) = spelled segment ++ text := by
  apply String.toList_inj.mp
  simp [spelled, Atom.content]

end Grammar

theorem KeyPath.toList_inj {first second : KeyPath} : first.toList = second.toList ↔ first = second := by
  cases first
  cases second
  simp [toList]

namespace KeyPath.Builder

open Grammar (Atom spelled)

/-- Go on by one atom. -/
def step? (builder : Builder) : Atom → Option Builder
  | .bare c => if c = '.' then builder.dot? else some (builder.push c)
  | .quoted text => some (builder.append text)

/-- Go on by atoms, one after the other. -/
def take? (builder : Builder) (atoms : List Atom) : Option Builder := atoms.foldlM step? builder

theorem word?_eq_take? (builder : Builder) (text : List Char) :
    builder.word? text = builder.take? (text.map .bare) := by
  induction text generalizing builder with
  | nil => rfl
  | cons c rest ih =>
    simp only [word?, take?, List.map_cons, List.foldlM_cons, step?]
    by_cases dot : c = '.'
    · simp only [if_pos dot]
      cases builder.dot? with
      | none => rfl
      | some next => exact ih next
    · simp only [if_neg dot]
      exact ih _

theorem take?_append (builder : Builder) (first second : List Atom) :
    builder.take? (first ++ second) = (builder.take? first).bind (·.take? second) :=
  List.foldlM_append

/-- A builder has read these segments up to their dots, and the front of another. -/
structure Holds (builder : Builder) (closed : List (List Atom)) (current : List Atom) : Prop where
  closed_eq : builder.closed = closed.map spelled
  segment_eq : builder.segment = spelled current
  blank_iff : builder.isBlankSegment = true ↔ current = []

variable {builder : Builder} {closed : List (List Atom)} {current : List Atom}

private theorem Holds.empty : Holds empty [] [] :=
  ⟨rfl, rfl, by decide⟩

private theorem Holds.push (holds : builder.Holds closed current) (c : Char) :
    (builder.push c).Holds closed (current ++ [.bare c]) := by
  refine ⟨holds.closed_eq, ?_, ?_⟩
  · rw [Grammar.spelled_bare, ← holds.segment_eq]
    rfl
  · simp [isBlankSegment, Builder.push]

private theorem Holds.append (holds : builder.Holds closed current) (text : String) :
    (builder.append text).Holds closed (current ++ [.quoted text]) := by
  refine ⟨holds.closed_eq, ?_, ?_⟩
  · rw [Grammar.spelled_quoted, ← holds.segment_eq]
    rfl
  · simp [isBlankSegment, Builder.append]

private theorem Holds.not_blank (holds : builder.Holds closed current) (more : current ≠ []) :
    builder.isBlankSegment = false :=
  Bool.eq_false_iff.mpr fun blank => more (holds.blank_iff.mp blank)

private theorem Holds.dot (holds : builder.Holds closed current) (more : current ≠ []) :
    ∃ next, builder.dot? = some next ∧ next.Holds (closed ++ [current]) [] := by
  refine ⟨⟨builder.closed ++ [builder.segment], "", false⟩, ?_, ?_, rfl, by simp [isBlankSegment]⟩
  · simp [dot?, holds.not_blank more]
  · simp [holds.closed_eq, holds.segment_eq]

private theorem Holds.path (holds : builder.Holds closed current) (more : current ≠ []) :
    ∃ path, builder.path? = some path ∧ path.toList = (closed ++ [current]).map spelled := by
  refine ⟨snoc builder.closed builder.segment, ?_, ?_⟩
  · simp [path?, holds.not_blank more]
  · simp [holds.closed_eq, holds.segment_eq]

theorem splitOn_dot (atoms : List Atom) :
    (Atom.bare '.' :: atoms).splitOn (.bare '.') = [] :: atoms.splitOn (.bare '.') := by
  simp [List.splitOn, List.splitOnP_cons_eq_if_modifyHead]

theorem splitOn_atom {atom : Atom} (apart : atom ≠ .bare '.') (atoms : List Atom) :
    (atom :: atoms).splitOn (.bare '.') = (atoms.splitOn (.bare '.')).modifyHead (atom :: ·) := by
  simp [List.splitOn, List.splitOnP_cons_eq_if_modifyHead, apart]

private theorem Holds.step {builder : Builder} {closed : List (List Atom)} {current : List Atom} {atom : Atom}
    (holds : builder.Holds closed current) (apart : atom ≠ .bare '.') :
    ∃ next, builder.step? atom = some next ∧ next.Holds closed (current ++ [atom]) := by
  cases atom with
  | bare c =>
    have other : c ≠ '.' := fun same => apart (by rw [same])
    exact ⟨_, by simp [step?, other], holds.push c⟩
  | quoted text => exact ⟨_, rfl, holds.append text⟩

/-- What atoms still to come make of a segment that has begun: they are cut at dots, and the
first part goes on with it. -/
private theorem path_of_take {builder : Builder} {closed : List (List Atom)} {current : List Atom}
    (holds : builder.Holds closed current) (atoms : List Atom) :
    let parts := (atoms.splitOn (.bare '.')).modifyHead (current ++ ·)
    if [] ∈ parts then (builder.take? atoms).bind path? = none
    else ∃ path, (builder.take? atoms).bind path? = some path ∧
      path.toList = (closed ++ parts).map spelled := by
  induction atoms generalizing builder closed current with
  | nil =>
    simp only [List.splitOn_nil, List.modifyHead_cons, List.append_nil, List.mem_singleton]
    split
    case isTrue none =>
      have blank := holds.blank_iff.mpr none.symm
      simp [take?, path?, blank]
    case isFalse some =>
      simpa [take?] using holds.path (Ne.symm some)
  | cons atom atoms ih =>
    obtain ⟨part, parts, cut⟩ : ∃ part parts, atoms.splitOn (.bare '.') = part :: parts :=
      List.exists_cons_of_ne_nil (List.splitOnP_ne_nil _ atoms)
    have goes : ∀ next : Builder, builder.step? atom = some next →
        builder.take? (atom :: atoms) = next.take? atoms := by
      intro next stepped
      simp [take?, List.foldlM_cons, stepped]
    by_cases dot : atom = .bare '.'
    · subst dot
      rw [splitOn_dot, cut]
      by_cases none : current = []
      · have blank := holds.blank_iff.mpr none
        simp [none, take?, List.foldlM_cons, step?, dot?, blank]
      · obtain ⟨next, stepped, after⟩ := holds.dot none
        have further := ih after
        rw [cut] at further
        rw [goes next (by simpa [step?] using stepped)]
        simpa [none, Ne.symm none] using further
    · rw [splitOn_atom dot, cut]
      obtain ⟨next, stepped, after⟩ := holds.step dot
      have further := ih after
      rw [cut] at further
      rw [goes next stepped]
      simpa using further

end KeyPath.Builder

namespace Grammar

/-- Reading atoms gives the path of their segments, unless one of them is without content. -/
theorem path_of_atoms (atoms : List Atom) :
    if [] ∈ atoms.splitOn (.bare '.') then (KeyPath.Builder.empty.take? atoms).bind (·.path?) = none
    else ∃ path, (KeyPath.Builder.empty.take? atoms).bind (·.path?) = some path ∧
      path.toList = (atoms.splitOn (.bare '.')).map spelled := by
  have read := KeyPath.Builder.path_of_take .empty atoms
  have whole : (atoms.splitOn (.bare '.')).modifyHead ([] ++ ·) = atoms.splitOn (.bare '.') := by
    cases atoms.splitOn (.bare '.') <;> rfl
  rw [whole] at read
  exact read

theorem path_eq_none {atoms : List Atom} (empty : [] ∈ atoms.splitOn (.bare '.')) :
    (KeyPath.Builder.empty.take? atoms).bind (·.path?) = none := by
  have read := path_of_atoms atoms
  rwa [if_pos empty] at read

theorem path_eq_some_iff {atoms : List Atom} {path : KeyPath} :
    (KeyPath.Builder.empty.take? atoms).bind (·.path?) = some path ↔
      [] ∉ atoms.splitOn (.bare '.') ∧ path.toList = (atoms.splitOn (.bare '.')).map spelled := by
  by_cases empty : [] ∈ atoms.splitOn (.bare '.')
  · rw [path_eq_none empty]
    simp [empty]
  · have read := path_of_atoms atoms
    rw [if_neg empty] at read
    obtain ⟨other, found, named⟩ := read
    rw [found, ← named, KeyPath.toList_inj, Option.some.injEq]
    exact ⟨fun same => ⟨empty, same.symm⟩, fun same => same.2.symm⟩

/-- A key by what a builder makes of its words. -/
theorem key_cons_iff {first : Lexeme} {others : List Lexeme} {path : KeyPath} :
    Key (first :: others) path ↔ first.token.isWord = true ∧
      (∀ lexeme ∈ others, lexeme.token.isWord = true ∧ lexeme.isSpaced = false) ∧
      ((KeyPath.Builder.empty.take? (atoms first.token)).bind
        (·.take? (others.flatMap (atoms ·.token)))).bind (·.path?) = some path := by
  have whole : (KeyPath.Builder.empty.take? ((first :: others).flatMap (atoms ·.token))).bind (·.path?) =
      some path ↔ _ := path_eq_some_iff
  rw [List.flatMap_cons, KeyPath.Builder.take?_append] at whole
  rw [whole]
  constructor
  · intro key
    obtain ⟨word, words⟩ := List.forall_mem_cons.mp key.words
    exact ⟨word, fun lexeme member => ⟨words lexeme member, key.adjacent lexeme member⟩,
      key.proper, key.named⟩
  · rintro ⟨word, words, proper, named⟩
    refine ⟨by simp, ?_, fun lexeme member => (words lexeme member).2, proper, named⟩
    exact List.forall_mem_cons.mpr ⟨word, fun lexeme member => (words lexeme member).1⟩

end Grammar

namespace Stream

open Grammar (atoms)

variable {start : Position} {builder : KeyPath.Builder} {begun : Bool} {path : KeyPath}
  {lexeme : Lexeme} {stream rest : Stream}

theorem key_end (rest : Stream)
    (ends : rest.token.isWord = true → begun = true ∧ rest.ahead.isSpaced = true) :
    rest.key start builder begun =
      match builder.path? with
      | some path => .ok ⟨path, rest, rest.length_lt_succ⟩
      | none => .error (.emptyKeySegment start) := by
  have stops : ∀ (lexeme : Lexeme) (step : Except Fault rest.Shorter),
      rest.next? = some (lexeme, step) → rest.ahead = lexeme → rest.key start builder begun =
        match builder.path? with
        | some path => .ok ⟨path, rest, rest.length_lt_succ⟩
        | none => .error (.emptyKeySegment start) := by
    rintro lexeme step next rfl
    rw [key, next]
    by_cases word : rest.token.isWord = true
    · obtain ⟨rfl, spaced⟩ := ends word
      exact if_pos (by rw [spaced]; rfl)
    · simp only
      split
      · rfl
      · split
        case h_1 text token => exact absurd (congrArg Token.isWord token) word
        case h_2 text token => exact absurd (congrArg Token.isWord token) word
        case h_3 => rfl
  cases rest with
  | ended last => rw [key]; rfl
  | broken lexeme fault => exact stops lexeme _ rfl rfl
  | more lexeme next => exact stops lexeme _ rfl rfl

theorem key_more {next : Stream} (word : lexeme.token.isWord = true)
    (adjacent : begun = true → lexeme.isSpaced = false) :
    (Stream.more lexeme next).key start builder begun =
      match builder.take? (atoms lexeme.token) with
      | some builder =>
        (next.key start builder true).map fun taken =>
          ⟨taken.value, taken.rest, lt_succ_of_lt (lt_of_le taken.within (length_lt_more lexeme next))⟩
      | none => .error (.emptyKeySegment start) := by
  have goes : (begun && lexeme.isSpaced) = false := by
    cases begun with
    | false => rfl
    | true => exact adjacent rfl
  rw [key]
  simp only [next?, goes, Bool.false_eq_true, if_false]
  cases token : lexeme.token <;> simp only [token, Token.isWord, Bool.false_eq_true] at word
  case unquoted text =>
    simp only [KeyPath.Builder.word?_eq_take?, atoms, bind, Except.bind]
    cases builder.take? (text.toList.map .bare) with
    | none => rfl
    | some further => cases next.key start further true <;> rfl
  case quoted text =>
    have taken : builder.take? (atoms (.quoted text)) = some (builder.append text) := rfl
    simp only [taken, bind, Except.bind]
    cases next.key start (builder.append text) true <;> rfl

theorem key_broken {fault : Fault} (word : lexeme.token.isWord = true)
    (adjacent : begun = true → lexeme.isSpaced = false) :
    (Stream.broken lexeme fault).key start builder begun = .error fault := by
  have goes : (begun && lexeme.isSpaced) = false := by
    cases begun with
    | false => rfl
    | true => exact adjacent rfl
  rw [key]
  simp only [next?, goes, Bool.false_eq_true, if_false]
  cases token : lexeme.token <;> simp only [token, Token.isWord, Bool.false_eq_true] at word
  all_goals rfl

theorem key_prepend {others : List Lexeme}
    (words : ∀ lexeme ∈ others, lexeme.token.isWord = true ∧ lexeme.isSpaced = false)
    (ends : rest.token.isWord = true → rest.ahead.isSpaced = true)
    (made : (builder.take? (others.flatMap (atoms ·.token))).bind (·.path?) = some path) :
    ∃ within, (prepend others rest).key start builder true = .ok ⟨path, rest, within⟩ := by
  induction others generalizing builder with
  | nil =>
    have made : builder.path? = some path := made
    have ended : rest.key start builder true = .ok ⟨path, rest, rest.length_lt_succ⟩ := by
      rw [key_end rest fun word => ⟨rfl, ends word⟩, made]
    exact ⟨_, ended⟩
  | cons lexeme others ih =>
    obtain ⟨⟨word, adjacent⟩, words⟩ := List.forall_mem_cons.mp words
    rw [List.flatMap_cons, KeyPath.Builder.take?_append] at made
    rw [prepend_cons, key_more word fun _ => adjacent]
    cases taken : builder.take? (atoms lexeme.token) with
    | none => simp [taken] at made
    | some further =>
      rw [taken] at made
      obtain ⟨within, done⟩ := ih words made
      exact ⟨_, by simp only [done]; rfl⟩

/-- Words that leave a segment without content make no key. -/
theorem key_prepend_none {others : List Lexeme}
    (words : ∀ lexeme ∈ others, lexeme.token.isWord = true ∧ lexeme.isSpaced = false)
    (ends : rest.token.isWord = true → rest.ahead.isSpaced = true)
    (none : (builder.take? (others.flatMap (atoms ·.token))).bind (·.path?) = none) :
    (prepend others rest).key start builder true = .error (.emptyKeySegment start) := by
  induction others generalizing builder with
  | nil =>
    have none : builder.path? = Option.none := none
    rw [prepend_nil, key_end rest fun word => ⟨rfl, ends word⟩, none]
  | cons lexeme others ih =>
    obtain ⟨⟨word, adjacent⟩, words⟩ := List.forall_mem_cons.mp words
    rw [List.flatMap_cons, KeyPath.Builder.take?_append] at none
    rw [prepend_cons, key_more word fun _ => adjacent]
    cases taken : builder.take? (atoms lexeme.token) with
    | none => rfl
    | some further =>
      rw [taken] at none
      simp only [ih words none]
      rfl

/-- What a key that has begun takes are words. -/
theorem key_taken {directives : Prop} {within : rest.length < stream.length + 1}
    (proper : stream.Proper directives)
    (done : stream.key start builder true = .ok ⟨path, rest, within⟩) :
    ∃ others, stream = prepend others rest ∧
      (∀ lexeme ∈ others, lexeme.token.isWord = true ∧ lexeme.isSpaced = false) ∧
      (builder.take? (others.flatMap (atoms ·.token))).bind (·.path?) = some path := by
  induction stream generalizing builder with
  | ended last =>
    have last : last.token = .endOfText := proper
    rw [key_end _ fun word => by simp [token, ahead, last, Token.isWord] at word] at done
    split at done <;> cases done
    exact ⟨[], rfl, by simp, ‹_›⟩
  | broken lexeme fault =>
    by_cases goes : lexeme.token.isWord = true ∧ lexeme.isSpaced = false
    · rw [key_broken goes.1 fun _ => goes.2] at done
      cases done
    · have spaced : lexeme.token.isWord = true → lexeme.isSpaced = true := by simpa using goes
      rw [key_end (.broken lexeme fault) fun word => ⟨rfl, spaced word⟩] at done
      split at done <;> cases done
      exact ⟨[], rfl, by simp, ‹_›⟩
  | more lexeme next ih =>
    by_cases goes : lexeme.token.isWord = true ∧ lexeme.isSpaced = false
    · rw [key_more goes.1 fun _ => goes.2] at done
      split at done
      case h_2 => cases done
      case h_1 further taken =>
        cases behind : next.key start further true with
        | error fault =>
          rw [behind] at done
          cases done
        | ok found =>
          simp only [behind, Except.map, Except.ok.injEq, Taken.mk.injEq] at done
          obtain ⟨rfl, rfl⟩ := done
          obtain ⟨others, same, words, made⟩ := ih proper.2.2 behind
          refine ⟨lexeme :: others, congrArg (Stream.more lexeme) same, List.forall_mem_cons.mpr ⟨goes, words⟩, ?_⟩
          rw [List.flatMap_cons, KeyPath.Builder.take?_append, taken]
          exact made
    · have spaced : lexeme.token.isWord = true → lexeme.isSpaced = true := by simpa using goes
      rw [key_end (.more lexeme next) fun word => ⟨rfl, spaced word⟩] at done
      split at done <;> cases done
      exact ⟨[], rfl, by simp, ‹_›⟩

private theorem key_end_local {fault : Fault} (stream : Stream)
    (spaced : stream.token.isWord = true → stream.ahead.isSpaced = true)
    (failed : stream.key start builder true = .error fault) : fault.Local := by
  rw [key_end stream fun word => ⟨rfl, spaced word⟩] at failed
  split at failed <;> cases failed
  exact rfl

theorem key_local {directives : Prop} {fault : Fault} (proper : stream.Proper directives)
    (failed : stream.key start builder true = .error fault) : fault.Local := by
  induction stream generalizing builder with
  | ended last =>
    have last : last.token = .endOfText := proper
    exact key_end_local _ (fun word => by simp [last, Token.isWord] at word) failed
  | broken lexeme cause =>
    by_cases goes : lexeme.token.isWord = true ∧ lexeme.isSpaced = false
    · rw [key_broken goes.1 fun _ => goes.2] at failed
      cases failed
      exact proper.2.2
    · exact key_end_local _ (by simpa [ahead] using goes) failed
  | more lexeme next ih =>
    by_cases goes : lexeme.token.isWord = true ∧ lexeme.isSpaced = false
    · rw [key_more goes.1 fun _ => goes.2] at failed
      split at failed
      case h_2 =>
        cases failed
        exact rfl
      case h_1 further taken =>
        cases behind : next.key start further true with
        | error cause =>
          rw [behind] at failed
          cases failed
          exact ih proper.2.2 behind
        | ok found =>
          rw [behind] at failed
          cases failed
    · exact key_end_local _ (by simpa [ahead] using goes) failed

end Stream
end Hocon
