import Hocon.Proofs.Include.Steps
import Hocon.Proofs.Lookahead.Values

namespace Hocon.Lookahead

section Homomorphism

variable {α β : Type}

private theorem halting_pure (value : α) : halting (pure value) = pure value := rfl

private theorem halting_bind (run : Run α) (next : α → Run β) :
    halting (run >>= next) = halting run >>= fun made => halting (next made) := by
  funext session
  simp only [halting, Bind.bind, EStateM.bind]
  cases run session <;> rfl

end Homomorphism

section Documents

variable {includer : Includer} {parser : Parser} {stream : Stream} {limit : Nat}

private theorem follows_bare (holds : Holds parser stream) (enough : stream.length < limit) :
    Follows includer.Clean parser
      (do return Value.object (← body limit (.of includer) (nested limit (.of includer) limit) .endOfText))
      (do
        let ⟨entries, references, _, _⟩ ← stream.fields includer .endOfText
        return (⟨Entry.build entries, references⟩ : Document))
      fun value made later => value = .object made.fields ∧
        later.references = parser.references ++ made.references := by
  have fits := Nat.le_refl limit
  refine Follows.bind (reads_body (reads_nested limit fits) fits holds enough enough .endOfText []) ?_
  rintro _ ⟨entries, references, rest, within⟩ last ⟨rfl, moved⟩
  exact .pure ⟨rfl, moved.references⟩

/-- A document is read with as many values inside each other as it has tokens. -/
private theorem follows_document (holds : Holds parser stream) (enough : stream.length < limit) :
    Follows includer.Clean parser (document limit (.of includer)) (stream.document includer)
      fun value made later => value = .object made.fields ∧
        later.references = parser.references ++ made.references := by
  have fits := Nat.le_refl limit
  have reads : ReadsValues includer (nested limit (.of includer) limit) limit := reads_nested limit fits
  unfold document Stream.document
  refine (follows_skip rfl holds enough).bind ?_
  rintro _ ⟨front, skipped⟩ later (moved : Moved parser stream [] front later)
  refine .peek moved.holds ?_
  have bare := @follows_bare includer _ _ limit moved.holds (by omega)
  have same : later.references = parser.references := moved.references.trans (List.append_nil _)
  rw [same] at bare
  dsimp only
  cases going : front.next? with
  | none =>
    rw [moved.holds.ended going]
    exact bare
  | some found =>
    obtain ⟨⟨space, start, token⟩, step⟩ := found
    have first : front.token = token := Stream.token_of_next? going
    have placed : front.start = start := Stream.start_of_next? going
    rw [first]
    cases token
    case leftBrace =>
      refine (Follows.advance moved.holds going).bind ?_
      rintro _ ⟨inside, behind⟩ past (opened : Moved later front [] inside past)
      refine Follows.bind (reads_body reads fits opened.holds (by omega) (by omega) .brace []) ?_
      rintro _ ⟨entries, references, next, within⟩ closer ⟨rfl, closed⟩
      have within : next.length < inside.length + 1 := within
      have closed : Moved past inside references next closer := closed
      have read := ((moved.trans opened).trans closed).references
      refine (follows_skip rfl closed.holds (by omega)).bind ?_
      rintro _ ⟨rest, _⟩ last (skipped : Moved closer next [] rest last)
      refine .peek skipped.holds ?_
      have finished : last.references = parser.references ++ references := by
        rw [skipped.references, List.append_nil]
        exact read
      cases token : rest.token
      case endOfText => exact .pure ⟨rfl, finished⟩
      all_goals
        refine .place skipped.holds ?_
        exact .fail fun _ => rfl
    case leftBracket =>
      refine .place moved.holds ?_
      rw [placed]
      exact .fail fun _ => rfl
    all_goals exact bare

/-- The parser comes to what reading the text comes to. -/
private theorem follows_parse (includer : Includer) (text : String) (session : Session) :
    Follows includer.Clean (.ofText text session)
      (fetch >>= fun _ => document (text.length + 1) (.of includer)) (Hocon.parse includer text)
      fun value made later => value = .object made.fields ∧ later.references = made.references := by
  unfold Hocon.parse Stream.ofText
  refine Follows.bind .fetch ?_
  rintro _ stream later ⟨holds, kept, _, read⟩
  have bounded : stream.length ≤ text.toList.length := Stream.length_le_of_read read
  rw [String.length_toList] at bounded
  refine (follows_document holds (by omega)).weaken ?_
  rintro _ _ last ⟨same, appended⟩
  exact ⟨same, by rw [appended, kept]; rfl⟩

private theorem parse_eq (includer : Includer) (text : String) :
    parse (.of includer) text = halting (Document.root <$> Hocon.parse includer text) := by
  funext session
  have follows := follows_parse includer text session
  unfold Follows at follows
  rw [show (Parser.ofText text session).session = session from rfl] at follows
  simp only [parse, halting, Functor.map, EStateM.map]
  cases ran : Hocon.parse includer text session with
  | error fault after =>
    rw [ran] at follows
    obtain ⟨_, later, halted, rfl⟩ := follows
    rw [halted]
  | ok made after =>
    rw [ran] at follows
    obtain ⟨value, later, done, rfl, rfl, same⟩ := follows
    rw [done]
    show EStateM.Result.ok (⟨.object made.fields, later.references⟩ : Root) later.session = _
    rw [same]
    rfl

private theorem not_blamesAnswer_of_parse {text : String} {session after : Session} {fault : Fault}
    (clean : includer.Clean) (failed : Hocon.parse includer text session = .error fault after) :
    fault.blamesAnswer = false := by
  have follows := follows_parse includer text session
  unfold Follows at follows
  rw [show (Parser.ofText text session).session = session from rfl, failed] at follows
  exact follows.1 clean

end Documents

section Files

open Files (FilePath)
open Include (World Site)

variable {world : World} {site : Site}

/-- Files answer as reading them answers. -/
abbrev AnswersAlike (world : World) (site : Site) : Prop :=
  answer world site = Answering.of (Include.answer world site)

/-- Files are loaded as reading them loads them. -/
abbrev LoadsAlike (world : World) (site : Site) : Prop :=
  ∀ file, load world site file = halting (Document.root <$> Include.load world site file)

private theorem load_eq (file : FilePath)
    (inside : ∀ text, world.files.identity file ∉ site.chain → world.files.read file = .ok text →
      AnswersAlike world (site.inside world.files file)) :
    load world site file = halting (Document.root <$> Include.load world site file) := by
  rw [load, Include.load_eq]
  by_cases known : world.files.identity file ∈ site.chain
  · rw [Include.loadBy_known known]
    simp only [known, dite_true]
    rfl
  simp only [known, dite_false]
  split
  case h_1 cause unread =>
    rw [Include.loadBy_unread known unread]
    rfl
  case h_2 text read =>
    have alike : answer world (site.inside world.files file) = _ := inside text known read
    rw [Include.loadBy_read known read, ← parse_eq, ← alike]
    rfl

private theorem foldlM_gather (loads : LoadsAlike world site) (files : List FilePath) (merged : Document) :
    files.foldlM (gather fun file => load world site file) merged.root =
      halting (Document.root <$> files.foldlM (Include.gather (Include.load world site)) merged) := by
  have one (merged : Document) (file : FilePath) :
      gather (fun file => load world site file) merged.root file =
        halting (Document.root <$> Include.gather (Include.load world site) merged file) := by
    simp only [gather, Include.gather, loads file, map_eq_pure_bind, halting_bind, halting_pure,
      bind_assoc, pure_bind]
    rfl
  induction files generalizing merged with
  | nil => rfl
  | cons file files ih =>
    simp only [List.foldlM_cons, one, map_eq_pure_bind, halting_bind, halting_pure, bind_assoc, pure_bind]
    refine bind_congr fun further => ?_
    simp only [ih, map_eq_pure_bind, halting_bind, halting_pure]

private theorem answer_eq (loads : LoadsAlike world site) : AnswersAlike world site := by
  funext directive
  rw [answer, Include.answer_eq, Answering.of, Include.answerBy]
  simp only [halting_bind]
  refine bind_congr fun files => ?_
  by_cases none : files.isEmpty = true
  · by_cases required : directive.required = true
    · simp only [none, required, if_true]
      rfl
    · simp only [none, required, if_true, Bool.false_eq_true, if_false]
      rfl
  · simp only [none, Bool.false_eq_true, if_false]
    have folded := foldlM_gather loads files ⟨[], []⟩
    rw [map_eq_pure_bind] at folded
    exact folded

/-- A fault in reading a file blames no answer if none inside the file does. -/
private theorem not_blamesAnswer_of_load {file : FilePath} {session after : Session} {fault : Fault}
    (inside : ∀ file text, world.files.identity file ∉ site.chain → world.files.read file = .ok text →
      Includer.Clean (Include.answer world (site.inside world.files file)))
    (failed : Include.load world site file session = .error fault after) : fault.blamesAnswer = false := by
  rw [Include.load_eq] at failed
  by_cases known : world.files.identity file ∈ site.chain
  · rw [Include.loadBy_known known] at failed
    cases failed
    rfl
  cases read : world.files.read file with
  | error cause =>
    rw [Include.loadBy_unread known read] at failed
    cases failed
    rfl
  | ok text =>
    rw [Include.loadBy_read known read] at failed
    exact not_blamesAnswer_of_parse (inside file text known read) failed

private theorem clean_answer (world : World) (site : Site) : Includer.Clean (Include.answer world site) := by
  induction site using Site.induct world.files with
  | step site inside =>
    refine ⟨Include.answer_objects world site, ?_⟩
    intro directive session fault after failed
    rw [Include.answer_eq] at failed
    rcases Run.error_of_bind failed with sought | ⟨files, searched, _, failed⟩
    · rcases Site.error_of_expand (Site.error_of_seek sought) with rfl | ⟨cause, rfl⟩
      · rfl
      · cases cause <;> rfl
    · have failed : (if files.isEmpty then _ else _ : Run Root) searched = .error fault after := failed
      split at failed
      · split at failed <;> cases failed
        rfl
      · rcases Run.error_of_bind failed with folded | ⟨merged, _, _, failed⟩
        · obtain ⟨file, _, before, behind, refused⟩ := Include.failed_of_gathered folded
          exact not_blamesAnswer_of_load inside refused
        · cases failed

private theorem answer_of (world : World) (site : Site) : AnswersAlike world site := by
  induction site using Site.induct world.files with
  | step site inside => exact answer_eq fun file => load_eq file (inside file)

end Files

/-- Parsing ends with a document or in a fault that is shown with none of these numbers. Nothing else halts it. -/
def EndsWithout (codes : List Nat) : EStateM.Result Halt Session Root → Prop
  | .ok _ _ => True
  | .error halt _ =>
    ∃ fault, halt = .fault fault ∧ ∀ code ∈ codes, halt.report?.bind (·.code) ≠ some code

private theorem endsWithout_halting {codes : List Nat} {run : Run Root} {session : Session}
    (others : ∀ {fault after}, run session = .error fault after →
      ∀ code ∈ codes, fault.report.code ≠ some code) :
    EndsWithout codes (halting run session) := by
  unfold halting
  cases ran : run session with
  | ok root after => trivial
  | error fault after => exact ⟨fault, rfl, others ran⟩

/-- No fault has the number of a missing token, or of a file that is no object. -/
private theorem code_ne (fault : Fault) : fault.report.code ≠ some 201 ∧ fault.report.code ≠ some 304 := by
  cases fault
  case unfit cause path =>
    show some cause.code ≠ some 201 ∧ some cause.code ≠ some 304
    cases cause <;> simp [Misfit.code]
  all_goals simp [Fault.report]

private theorem code_ne_of_not_blamesAnswer {fault : Fault} (own : fault.blamesAnswer = false) :
    fault.report.code ≠ some 216 := by
  cases fault
  case includedNotObject => cases own
  case unfit cause path =>
    show some cause.code ≠ some 216
    cases cause <;> simp [Misfit.code]
  all_goals simp [Fault.report]

/-- On every text the parser does what reading the text does, whoever answers, and so do files that answer. So it
ends, and nothing halts it but faults; where files answer, none of these blames an answer. -/
theorem parse_halts_in_faults :
    (∀ (includer : Includer) (text : String),
      parse (.of includer) text = halting (Document.root <$> Hocon.parse includer text)) ∧
    (∀ (world : Include.World) (site : Include.Site),
      answer world site = Answering.of (Include.answer world site)) ∧
    (∀ (includer : Includer) (text : String) (session : Session),
      EndsWithout [201] (parse (.of includer) text session)) ∧
    ∀ (world : Include.World) (site : Include.Site) (text : String) (session : Session),
      EndsWithout [201, 216, 304] (parse (answer world site) text session) := by
  refine ⟨parse_eq, answer_of, fun includer text session => ?_, fun world site text session => ?_⟩
  · rw [parse_eq]
    refine endsWithout_halting fun {fault _} _ => ?_
    simpa using (code_ne fault).1
  · rw [answer_of, parse_eq]
    refine endsWithout_halting fun {fault after} failed => ?_
    rw [map_eq_pure_bind] at failed
    rcases Run.error_of_bind failed with refused | ⟨_, _, _, made⟩
    · have own := not_blamesAnswer_of_parse (clean_answer world site) refused
      simpa using ⟨(code_ne fault).1, code_ne_of_not_blamesAnswer own, (code_ne fault).2⟩
    · cases made

/-- The word is taken, and the token behind it cannot be read. -/
example : (match parse (.of fun _ => pure .empty) "a = b$" .start with
    | .ok .. => none
    | .error halt _ => some halt) = some (.fault (.noBraceInReference ⟨1, 6⟩)) := by
  decide +kernel

end Hocon.Lookahead
