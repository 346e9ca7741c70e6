import Hocon.Proofs.Include.Directives
import Hocon.Proofs.Keys
import Hocon.Proofs.Trivia
import Mathlib.Data.Bool.AllAny
import Mathlib.Data.List.DropRight
import Mathlib.Data.List.Flatten

/-! The names of values. A reference and a key are read by different readers, one of characters and
one of tokens; what either of them takes for a path is the text cut at the dots outside quotes. Inside
a reference blanks may stand besides, and there they are passed over, also within a segment. -/
namespace Hocon

namespace Grammar

variable {segment : List Atom}

/-- A segment without the blanks at its two ends. -/
def trimmed (segment : List Atom) : List Atom := (segment.dropWhile Atom.isGap).rdropWhile Atom.isGap

private theorem solid_dropWhile (segment : List Atom) :
    solid (segment.dropWhile Atom.isGap) = solid segment := by
  have none : solid (segment.takeWhile Atom.isGap) = [] :=
    List.filter_eq_nil_iff.mpr fun atom member => by simp [List.mem_takeWhile_imp member]
  calc solid (segment.dropWhile Atom.isGap)
      = solid (segment.takeWhile Atom.isGap) ++ solid (segment.dropWhile Atom.isGap) := by
        rw [none, List.nil_append]
    _ = solid segment := by rw [solid, solid, ← List.filter_append, List.takeWhile_append_dropWhile, ← solid]

private theorem solid_reverse (segment : List Atom) : solid segment.reverse = (solid segment).reverse :=
  List.filter_reverse

private theorem solid_trimmed (segment : List Atom) : solid (trimmed segment) = solid segment := by
  rw [trimmed, List.rdropWhile, solid_reverse, solid_dropWhile, solid_reverse, List.reverse_reverse,
    solid_dropWhile]

private theorem spelled_solid_iff :
    spelled (solid segment) = spelled segment ↔ ∀ atom ∈ segment, atom.isGap = false := by
  constructor
  · intro same
    replace same : (solid segment).flatMap Atom.content = segment.flatMap Atom.content :=
      String.ofList_injective same
    induction segment with
    | nil => simp
    | cons atom segment ih =>
      have fewer : ((solid segment).flatMap Atom.content).length ≤ (segment.flatMap Atom.content).length :=
        (List.filter_sublist.flatMap _).length_le
      cases gap : atom.isGap with
      | false =>
        rw [solid_cons gap, List.flatMap_cons, List.flatMap_cons] at same
        exact List.forall_mem_cons.mpr ⟨gap, ih (List.append_cancel_left same)⟩
      | true =>
        cases atom with
        | quoted text => cases gap
        | bare c =>
          have longer := congrArg List.length same
          rw [solid_cons_of_gap gap, List.flatMap_cons, List.length_append, Atom.content,
            List.length_singleton] at longer
          omega
  · intro flat
    rw [solid_eq_self flat]

end Grammar

namespace Cursor

open Grammar

variable {cursor : Cursor} {path : KeyPath} {optional : Bool} {text rest : List Char} {atoms : List Atom}

/-- A reference was written as a path between braces. -/
private theorem inscribes_of_read (scanned : cursor.read.scan.outcome = .ok (.reference path optional)) :
    ∃ text atoms, Inscribes text atoms ∧ (KeyPath.Builder.empty.take? (solid atoms)).bind (·.path?) = some path ∧
      cursor.skip.rest = '$' :: '\x7b' :: (question optional ++ text ++ '\x7d' :: cursor.read.scan.after.rest) := by
  simp only [read] at scanned ⊢
  generalize cursor.skip.rest = whole at scanned
  generalize cursor.skip.place = place at scanned
  unfold token at scanned ⊢
  split at scanned
  case h_3 inside =>
    obtain ⟨found, mark, text, atoms, token, inscribes, made, same⟩ := inscribes_of_reference scanned
    cases token
    exact ⟨text, atoms, inscribes, made, congrArg ('$' :: ·) same⟩
  case h_4 | h_5 =>
    obtain ⟨content, _, other⟩ := Scan.ok_of_map scanned
    cases other
  case h_6 =>
    split at scanned
    case h_1 symbol known =>
      unfold symbol? at known
      split at known <;> cases known <;> cases scanned
    case h_2 => split at scanned <;> cases scanned
  all_goals cases scanned

private theorem read_of_inscribes (inscribes : Inscribes text atoms)
    (opens : cursor.skip.rest = '$' :: '\x7b' :: (question optional ++ text ++ '\x7d' :: rest)) :
    match (KeyPath.Builder.empty.take? (solid atoms)).bind (·.path?) with
    | some path => ∃ after, cursor.read.scan = .ok (.reference path optional) after rest
    | none => cursor.read.scan.outcome = .error (.emptyPathSegment cursor.read.start) := by
  have scanned : cursor.read.scan = Scan.reference cursor.read.start (cursor.skip.place.after '$') _ :=
    congrArg (token cursor.skip.place) opens
  rw [scanned]
  exact inscribes.reference cursor.read.start (cursor.skip.place.after '$') optional rest

/-- Inside a reference all blanks outside quotes are passed over, so the path is that of the trimmed
segments only where no blank stands within one. -/
theorem reference_trimmed_iff (scanned : cursor.read.scan.outcome = .ok (.reference path optional)) :
    ∃ text atoms, Inscribes text atoms ∧
      cursor.skip.rest = '$' :: '\x7b' :: (question optional ++ text ++ '\x7d' :: cursor.read.scan.after.rest) ∧
      let segments := atoms.splitOn (.bare '.')
      (∀ segment ∈ segments, solid segment ≠ []) ∧ path.toList = segments.map (spelled ∘ solid) ∧
        (path.toList = segments.map (spelled ∘ trimmed) ↔
          ∀ segment ∈ segments, ∀ atom ∈ trimmed segment, atom.isGap = false) := by
  obtain ⟨text, atoms, inscribes, made, opens⟩ := inscribes_of_read scanned
  obtain ⟨proper, named⟩ := path_eq_some_iff.mp made
  rw [splitOn_solid] at proper named
  rw [List.map_map] at named
  refine ⟨text, atoms, inscribes, opens, ?_, named, ?_⟩
  · intro segment member empty
    exact proper (empty ▸ List.mem_map_of_mem member)
  · rw [named, List.map_inj_left]
    refine forall₂_congr fun segment _ => ?_
    rw [Function.comp_apply, Function.comp_apply, ← solid_trimmed, spelled_solid_iff]

/-- A blank is lost between two letters, and kept between quotes. -/
theorem blanks_passed_over :
    let cursor : Cursor := .ofText "$\x7b? a b . \"c d\" \x7d"
    let path : KeyPath := ⟨"ab", ["c d"]⟩
    cursor.read.scan.outcome = .ok (.reference path true) ∧ ∃ text atoms, Inscribes text atoms ∧
      cursor.skip.rest = '$' :: '\x7b' :: (question true ++ text ++ '\x7d' :: cursor.read.scan.after.rest) ∧
      let segments := atoms.splitOn (.bare '.')
      (∀ segment ∈ segments, solid segment ≠ []) ∧ path.toList = segments.map (spelled ∘ solid) ∧
        (path.toList = segments.map (spelled ∘ trimmed) ↔
          ∀ segment ∈ segments, ∀ atom ∈ trimmed segment, atom.isGap = false) := by
  intro cursor path
  have scanned : cursor.read.scan.outcome = .ok (.reference path true) := by decide +kernel
  exact ⟨scanned, reference_trimmed_iff scanned⟩

/-- A path is not always that of the trimmed segments: two letters with a blank between them are
read as one word. -/
theorem blank_in_segment_lost :
    ¬∀ {cursor : Cursor} {path : KeyPath} {optional : Bool} {text rest : List Char} {atoms : List Atom},
      Inscribes text atoms → cursor.skip.rest = '$' :: '\x7b' :: (question optional ++ text ++ '\x7d' :: rest) →
      cursor.read.scan.outcome = .ok (.reference path optional) →
      path.toList = (atoms.splitOn (.bare '.')).map (spelled ∘ trimmed) := by
  intro always
  have inscribes : Inscribes ['a', ' ', 'b'] _ :=
    .bare (.inl (by decide)) (.bare (.inr (.inl rfl)) (.bare (.inl (by decide)) .nil))
  have scanned : (Cursor.ofText "$\x7ba b\x7d").read.scan.outcome = .ok (.reference ⟨"ab", []⟩ false) := by
    decide +kernel
  have named := @always _ _ _ _ [] _ inscribes (by decide +kernel) scanned
  exact absurd named (by decide +kernel)

end Cursor

open Grammar

/-- A text that may be the path of a reference as well as a key: no blank stands outside quotes, no
comment begins there, and no three quotes begin another kind of text. -/
structure Names (text : List Char) (atoms : List Atom) : Prop where
  inscribes : Inscribes text atoms
  flat : ∀ atom ∈ atoms, atom.isGap = false
  code : ¬[.bare '/', .bare '/'] <:+: atoms
  single : ¬['"', '"', '"'] <:+: text

variable {text rest : List Char} {atoms : List Atom} {c : Char}

private theorem Names.behind {behind : List Char} {others : List Atom} (front : List Char) (first : List Atom)
    (names : Names (front ++ behind) (first ++ others)) (inscribes : Inscribes behind others) :
    Names behind others where
  inscribes := inscribes
  flat atom member := names.flat atom (List.mem_append_right first member)
  code slashes := names.code (slashes.trans (List.suffix_append first others).isInfix)
  single quotes := names.single (quotes.trans (List.suffix_append front behind).isInfix)

/-- Outside quotes nothing begins a comment. -/
private theorem startsComment_of_inscribes (letter : isForbidden c = false) (inscribes : Inscribes text atoms)
    (code : ¬[.bare '/', .bare '/'] <:+: .bare c :: atoms) (ends : Lexes.Bounded rest) :
    startsComment (c :: (text ++ rest)) = false := by
  rw [Bool.eq_false_iff, ne_eq, startsComment_cons]
  rintro (rfl | ⟨rfl, head⟩)
  · cases letter
  · cases inscribes with
    | nil => exact absurd (ends '/' head).1 (by decide)
    | bare =>
      cases head
      exact code (List.prefix_append [Atom.bare '/', Atom.bare '/'] _).isInfix
    | quoted => cases head

private theorem Grammar.Inscribes.behind_letters {letters : List Char} (inscribes : Inscribes text atoms)
    (plain : ∀ c ∈ letters, isForbidden c = false) :
    Inscribes (letters ++ text) (letters.map .bare ++ atoms) := by
  induction letters with
  | nil => exact inscribes
  | cons c letters ih =>
    obtain ⟨letter, plain⟩ := List.forall_mem_cons.mp plain
    exact .bare (.inl letter) (ih plain)

private theorem Grammar.Inscribes.word_append (inscribes : Inscribes text atoms)
    (flat : ∀ atom ∈ atoms, atom.isGap = false) (code : ¬[.bare '/', .bare '/'] <:+: atoms)
    (ends : Lexes.Bounded rest) :
    ∃ letters behind others, text = letters ++ behind ∧ atoms = letters.map .bare ++ others ∧
      Inscribes behind others ∧ word (text ++ rest) = (letters, behind ++ rest) := by
  induction inscribes with
  | nil =>
    refine ⟨[], [], [], rfl, rfl, .nil, ?_⟩
    cases rest with
    | nil => rfl
    | cons c rest => simp [word, (ends c rfl).1]
  | @bare c text atoms letter further ih =>
    obtain ⟨solid, flat⟩ := List.forall_mem_cons.mp flat
    have letter := letter_of_solid letter solid
    obtain ⟨letters, behind, others, rfl, rfl, inscribes, split⟩ :=
      ih flat fun slashes => code (List.infix_cons slashes)
    have plain := startsComment_of_inscribes letter further code ends
    refine ⟨c :: letters, behind, others, rfl, rfl, inscribes, ?_⟩
    rw [List.cons_append, word, if_neg (by rw [letter, plain]; exact Bool.false_ne_true), split]
  | @quoted inside content text atoms decodes further =>
    refine ⟨[], _, _, rfl, rfl, .quoted decodes further, ?_⟩
    rw [List.cons_append, word, if_pos (by simp [isForbidden])]

/-- What a name begins with is read as one word or quoted text, and a name is left behind it. -/
private theorem Names.takes (names : Names text atoms) (some : text ≠ []) (ends : Lexes.Bounded rest) :
    ∃ token behind others, token.isWord = true ∧ Takes (text ++ rest) ⟨"", token⟩ (behind ++ rest) ∧
      behind.length < text.length ∧ Names behind others ∧ atoms = Grammar.atoms token ++ others := by
  have inscribes := names.inscribes
  cases inscribes with
  | nil => exact absurd rfl some
  | @bare c text atoms letter further =>
    obtain ⟨solid, flat⟩ := List.forall_mem_cons.mp names.flat
    have letter := letter_of_solid letter solid
    obtain ⟨letters, behind, others, rfl, rfl, inscribes, split⟩ :=
      further.word_append flat (fun slashes => names.code (List.infix_cons slashes)) ends
    refine ⟨.unquoted (String.ofList (c :: letters)), behind, others, rfl, ?_, ?_, ?_, ?_⟩
    · have plain := startsComment_of_inscribes letter further names.code ends
      refine .of_token ?_ plain (by simp) fun place => ?_
      · rw [Bool.eq_false_iff]
        exact fun blank => absurd (isForbidden_of_isBlank blank) (by simp [letter])
      · have scanned := Lexes.token_of_letter letter place (letters ++ behind ++ rest)
        rw [word_of_letter letter plain, split] at scanned
        exact ⟨_, scanned⟩
    · rw [List.length_cons, List.length_append]
      omega
    · exact .behind (c :: letters) (.bare c :: letters.map .bare) names inscribes
    · rw [Grammar.atoms, String.toList_ofList]
      rfl
  | @quoted inside content text atoms decodes further =>
    have single : ∀ more, inside ++ '"' :: (text ++ rest) ≠ '"' :: '"' :: more := by
      refine Scan.single_of_head decodes.head ?_
      rintro rfl head
      cases text with
      | nil => exact (ends '"' head).2 rfl
      | cons c text =>
        cases head
        exact names.single (List.prefix_append ['"', '"', '"'] text).isInfix
    refine ⟨.quoted (String.ofList content), text, atoms, rfl, ?_, ?_, ?_, rfl⟩
    · rw [List.cons_append, List.append_assoc, List.cons_append]
      refine .of_token rfl rfl (by simp) fun place => ?_
      obtain ⟨after, scanned⟩ := decodes.quoted place.ahead (place.after '"') (text ++ rest)
      rw [Lexes.token_of_quote single, scanned]
      exact ⟨after, rfl⟩
    · rw [List.length_cons, List.length_append, List.length_cons]
      omega
    · refine .behind ('"' :: (inside ++ ['"'])) [.quoted (String.ofList content)] ?_ further
      simpa using names

private theorem Names.reaches (names : Names text atoms) (ends : Lexes.Bounded rest) :
    ∃ marks, Reaches (text ++ rest) marks rest ∧ (∀ mark ∈ marks, mark.space = "" ∧ mark.token.isWord = true) ∧
      marks.flatMap (Grammar.atoms ·.token) = atoms := by
  -- a word takes all the letters there are, so the induction is on what is left behind it
  induction size : text.length using Nat.strong_induction_on generalizing text atoms with
  | h size ih =>
    by_cases none : text = []
    · subst none
      have inscribes := names.inscribes
      cases inscribes
      exact ⟨[], .here, by simp, rfl⟩
    · obtain ⟨token, behind, others, word, takes, shorter, left, rfl⟩ := names.takes none ends
      obtain ⟨marks, reaches, words, rfl⟩ := ih behind.length (size ▸ shorter) left rfl
      exact ⟨⟨"", token⟩ :: marks, .step takes reaches, List.forall_mem_cons.mpr ⟨⟨rfl, word⟩, words⟩, rfl⟩

/-- A document that sets a value under a key. -/
def keyed (text : List Char) : String := String.ofList (text ++ [' ', '=', ' ', '1'])

private theorem Names.read (names : Names text atoms) :
    ∃ words equals one last, (∀ lexeme ∈ words, lexeme.token.isWord = true ∧ lexeme.isSpaced = false) ∧
      words.flatMap (Grammar.atoms ·.token) = atoms ∧ equals.token = .equals ∧ one.token = .unquoted "1" ∧
      last.token = .endOfText ∧
      Stream.ofText (keyed text) = .ok (.prepend (words ++ [equals, one]) (.ended last)) := by
  have behind : Reaches [' ', '=', ' ', '1'] [⟨" ", .equals⟩, ⟨" ", .unquoted "1"⟩] [] := by
    have taken : Cursor.taken 2 ⟨.origin, [' ', '=', ' ', '1']⟩ =
        some ([⟨" ", .equals⟩, ⟨" ", .unquoted "1"⟩], []) := by decide +kernel
    exact reaches_of_taken taken
  have ends : Lexes.Bounded [' ', '=', ' ', '1'] := by
    rintro c ⟨⟩
    exact ⟨by decide, by decide⟩
  obtain ⟨marks, reaches, marked, whole⟩ := names.reaches ends
  obtain ⟨front, last, same, finished, read⟩ := Marked.read ⟨[], reaches.append behind, rfl⟩ .origin
  obtain ⟨words, final, rfl, rfl, final_marks⟩ := List.map_eq_append_iff.mp same
  obtain ⟨equals, final, rfl, equals_mark, final_marks⟩ := List.map_eq_cons_iff.mp final_marks
  obtain ⟨one, final, rfl, one_mark, final_marks⟩ := List.map_eq_cons_iff.mp final_marks
  obtain rfl := List.map_eq_nil_iff.mp final_marks
  refine ⟨words, equals, one, last, ?_, ?_, congrArg Mark.token equals_mark, congrArg Mark.token one_mark,
    finished, ?_⟩
  · intro lexeme member
    obtain ⟨space, word⟩ := marked _ (List.mem_map_of_mem member)
    have space : lexeme.space = "" := space
    exact ⟨word, by rw [Lexeme.isSpaced, space]; rfl⟩
  · rw [← whole, List.flatMap_map]
    rfl
  · rw [Stream.ofText, Cursor.ofText, keyed, String.toList_ofList]
    exact read

private theorem Names.begun (names : Names text atoms) (some : text ≠ []) : atoms ≠ [] := by
  have inscribes := names.inscribes
  rintro rfl
  cases inscribes
  exact some rfl

private theorem Names.parse_eq {path : KeyPath} (names : Names text atoms) (some : text ≠ [])
    (proper : [] ∉ atoms.splitOn (.bare '.')) (named : path.toList = (atoms.splitOn (.bare '.')).map spelled)
    (includer : Includer) :
    parse includer (keyed text) = pure ⟨[(path.first, Object.nest path.rest (.text "1"))], []⟩ := by
  obtain ⟨words, equals, one, last, adjacent, rfl, mark, token, finished, read⟩ := names.read
  have key : Key words path := by
    refine ⟨?_, fun lexeme member => (adjacent lexeme member).1,
      fun lexeme member => (adjacent lexeme (List.mem_of_mem_tail member)).2, proper, named⟩
    rintro rfl
    exact names.begun some rfl
  have phrase : Phrase.Spells False (.mk (.text true "1") .none) ([one] ++ []) := .mk (.word token) .none
  have field : Field.Spells False (.assign path _) (words ++ equals :: [] ++ ([one] ++ [])) :=
    .assign key (.inr mark) (by simp) phrase
  have fields : Fields.Spells False (.more (.assign path _) .none) ([] ++ _ ++ []) :=
    .more (by simp) field (.none (by simp)) (by simp)
  have document : (Stream.prepend (words ++ [equals, one]) (.ended last)).document includer =
      Fields.document includer (.more (.assign path (.mk (.text true "1") .none)) .none) := by
    simpa using Stream.document_reads False.elim (.bare fields finished)
  have whole : parse includer (keyed text) = _ := (congrArg (Run.ofExcept · >>= _) read).trans document
  rw [whole, ← Object.build_assign]
  rfl

private theorem Names.parse_refused (names : Names text atoms) (some : text ≠ [])
    (empty : [] ∈ atoms.splitOn (.bare '.')) :
    ∃ place, ∀ includer, parse includer (keyed text) = throw (.emptyKeySegment place) := by
  obtain ⟨words, equals, one, last, adjacent, rfl, mark, token, finished, read⟩ := names.read
  cases words with
  | nil => exact absurd rfl (names.begun some)
  | cons first others =>
    obtain ⟨⟨word, _⟩, words⟩ := List.forall_mem_cons.mp adjacent
    have other : (Stream.prepend [equals, one] (.ended last)).token.isWord = false := congrArg Token.isWord mark
    obtain ⟨place, refused⟩ := Stream.entry_unnamed word words empty other
    refine ⟨place, fun includer => ?_⟩
    have document := Stream.document_refused word (refused includer)
    rw [Stream.prepend_append] at read
    exact (congrArg (Run.ofExcept · >>= _) read).trans document

/-- A reference by a path. -/
def braced (text : List Char) : List Char := '$' :: '\x7b' :: (text ++ ['\x7d'])

private theorem Names.lexes (names : Names text atoms) :
    match (KeyPath.Builder.empty.take? atoms).bind (·.path?) with
    | some path => Lexes (braced text) [.reference path false]
    | none => ∀ place, Stream.read ⟨place, braced text⟩ = .error (.emptyPathSegment place.ahead) := by
  have opens (place : Position) : (⟨place, braced text⟩ : Cursor).skip = ⟨place, braced text⟩ :=
    Lexes.skip_eq rfl rfl
  have found (place : Position) := @Cursor.read_of_inscribes ⟨place, braced text⟩ false text [] atoms
    names.inscribes (congrArg Cursor.rest (opens place))
  rw [solid_eq_self names.flat] at found
  split
  case h_1 path made =>
    intro place
    obtain ⟨after, scanned⟩ : ∃ after, (⟨place, braced text⟩ : Cursor).read.scan =
      .ok (.reference path false) after [] := by simpa [made] using found place
    obtain ⟨stream, read, spells⟩ := Lexes.nil after
    exact ⟨_, Stream.read_more scanned (by simp) read, .more spells⟩
  case h_2 made =>
    intro place
    have refused : (⟨place, braced text⟩ : Cursor).read.scan.outcome = .error (.emptyPathSegment place.ahead) := by
      have refused := found place
      rw [made] at refused
      rw [refused, Cursor.read, opens]
    rw [Stream.read_eq, refused]

/-- References and keys name the same values: a text is read between braces as a path just when a
value is set at that path under the same text as a key. That path is the text cut at the dots outside
quotes, and where nothing stands between two of them, or at an end, neither is read. -/
theorem braced_iff_keyed (names : Names text atoms) (some : text ≠ []) (includer : Includer) :
    let segments := atoms.splitOn (.bare '.')
    (∀ path : KeyPath, Lexes (braced text) [.reference path false] ↔
      parse includer (keyed text) = pure ⟨[(path.first, Object.nest path.rest (.text "1"))], []⟩) ∧
      if [] ∈ segments then
        (∀ place, Stream.read ⟨place, braced text⟩ = .error (.emptyPathSegment place.ahead)) ∧
          ∃ place, parse includer (keyed text) = throw (.emptyKeySegment place)
      else ∃ path : KeyPath, path.toList = segments.map spelled ∧ Lexes (braced text) [.reference path false] := by
  intro segments
  have lexed := names.lexes
  by_cases empty : [] ∈ segments
  · rw [path_eq_none empty] at lexed
    obtain ⟨place, refused⟩ := names.parse_refused some empty
    rw [if_pos empty, refused includer]
    refine ⟨fun path => iff_of_false ?_ ?_, lexed, place, rfl⟩
    · intro lexes
      obtain ⟨stream, read, _⟩ := lexes .origin
      rw [lexed] at read
      cases read
    · intro same
      cases congrFun same .start
  · have made := path_of_atoms atoms
    rw [if_neg empty] at made
    obtain ⟨path, made, named⟩ := made
    rw [made] at lexed
    rw [if_neg empty, names.parse_eq some empty named includer]
    refine ⟨fun other => ⟨fun lexes => ?_, fun same => ?_⟩, path, named, lexed⟩
    · cases lexed.unique lexes
      rfl
    · obtain ⟨first, rest⟩ := path
      obtain ⟨begin, behind⟩ := other
      have same := congrFun same .start
      simp only [pure, EStateM.pure, EStateM.Result.ok.injEq, Document.mk.injEq, List.cons.injEq, Prod.mk.injEq,
        and_true] at same
      obtain rfl : first = begin := same.1
      obtain rfl := Object.nest_text_inj same.2
      exact lexed

/-- The word that begins directives, with a quoted dot and a quoted text of nothing, and a key with
nothing between two dots. -/
theorem include_braced_and_keyed :
    let text := ['i', 'n', 'c', 'l', 'u', 'd', 'e', '"', '.', '"', '.', '"', '"']
    let gapped := ['a', '.', '.', 'b']
    (∃ atoms, Names text atoms ∧ text ≠ [] ∧ Lexes (braced text) [.reference ⟨"include.", [""]⟩ false] ∧
      parse .silent (keyed text) = pure ⟨[("include.", .object [("", .text "1")])], []⟩) ∧
    ∃ atoms, Names gapped atoms ∧ gapped ≠ [] ∧
      (∀ place, Stream.read ⟨place, braced gapped⟩ = .error (.emptyPathSegment place.ahead)) ∧
      ∃ place, parse .silent (keyed gapped) = throw (.emptyKeySegment place) := by
  intro text gapped
  have quoted : Inscribes ['"', '.', '"', '.', '"', '"'] [.quoted ".", .bare '.', .quoted ""] :=
    .quoted (.plain (by decide) (by decide) (by decide) .nil) (.bare (.inl (by decide)) (.quoted .nil .nil))
  have letters : ∀ c ∈ ['i', 'n', 'c', 'l', 'u', 'd', 'e'], isForbidden c = false :=
    List.all_iff_forall_prop.mp (by decide)
  have named : Names text _ := ⟨quoted.behind_letters letters, by decide, by decide, by decide⟩
  have dotted : ∀ c ∈ gapped, isForbidden c = false :=
    List.all_iff_forall_prop.mp (by decide)
  have refused : Names gapped _ := ⟨Inscribes.nil.behind_letters dotted, by decide, by decide, by decide⟩
  refine ⟨⟨_, named, by decide, ?_⟩, _, refused, by decide, ?_⟩
  · obtain ⟨same, path, spelled, lexes⟩ := braced_iff_keyed named (by decide) .silent
    obtain rfl : path = ⟨"include.", [""]⟩ := KeyPath.toList_inj.mp spelled
    exact ⟨lexes, (same _).mp lexes⟩
  · exact (braced_iff_keyed refused (by decide) .silent).2

end Hocon
