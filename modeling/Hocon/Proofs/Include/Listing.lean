import Hocon.Proofs.Files.Relisting
import Hocon.Proofs.Grammar.Stops
import Hocon.Proofs.Include.Guarding
import Hocon.Proofs.Include.Linking

namespace Hocon

private theorem Cursor.dollar_of_reference {place : Position} {text : List Char} {path : KeyPath}
    {optional : Bool}
    (scanned : (token place text).outcome = .ok (.reference path optional)) : ∃ rest, text = '$' :: rest := by
  unfold token at scanned
  split at scanned
  case h_3 rest => exact ⟨rest, rfl⟩
  case h_4 | h_5 =>
    obtain ⟨content, _, same⟩ := Scan.ok_of_map scanned
    cases same
  case h_6 =>
    split at scanned
    case h_1 symbol known =>
      cases Except.ok.inj scanned
      unfold symbol? at known
      split at known <;> cases known
    case h_2 => split at scanned <;> cases scanned
  all_goals cases scanned

/-- A reference is written in a text, its dollar sign at this place. -/
def Writes (text : List Char) (path : KeyPath) (optional : Bool) (place : Position) : Prop :=
  ∃ before rest, text = before ++ '$' :: rest ∧ place = .behind before ∧
    (Cursor.token (Position.origin.past before) ('$' :: rest)).outcome = .ok (.reference path optional)

private theorem Lexeme.Stands.writes {lexeme : Lexeme} {text : List Char} {path : KeyPath} {optional : Bool}
    (stands : lexeme.Stands .origin text) (token : lexeme.token = .reference path optional) :
    Writes text path optional lexeme.start := by
  obtain ⟨before, rest, rfl, start, scanned⟩ := stands
  rw [token] at scanned
  obtain ⟨rest, rfl⟩ := Cursor.dollar_of_reference scanned
  exact ⟨before, rest, rfl, start.trans (Position.ahead_past_origin before), scanned⟩

/-- A text as it is read from start to end: every reference that is met is written where it says, each
behind the one before. -/
structure Outline (text : String) (lexemes : List Lexeme) (fields : Grammar.Fields) : Prop where
  lexed : Lexed (.ofText text) lexemes
  derives : Grammar.Derives True fields lexemes
  meets : Grammar.Meets lexemes fields.stops
  written : ∀ {path optional place}, .reference path optional place ∈ fields.stops →
    Writes text.toList path optional place
  ascending : (fields.stops.filterMap Stop.place?).Pairwise Position.Before

private theorem outline_of_read {text : String} {front : List Lexeme} {last : Lexeme} {fields : Grammar.Fields}
    (read : Stream.ofText text = .ok (.prepend front (.ended last)))
    (derives : Grammar.Derives True fields (front ++ [last])) : Outline text (front ++ [last]) fields where
  lexed := .of_read read
  derives := derives
  meets := derives.meets
  written := by
    intro path optional place member
    obtain ⟨lexeme, among, token, rfl⟩ := derives.meets.mem member
    exact ((Stream.stands_of_read read).1 lexeme among).writes token
  ascending := by
    refine List.Pairwise.sublist derives.meets.places ?_
    exact List.pairwise_map.mpr (Stream.stands_of_read read).2

private theorem Outline.run {includer : Includer} {text : String} {lexemes : List Lexeme}
    {fields : Grammar.Fields}
    {session after : Session} {document : Document} (outline : Outline text lexemes fields)
    (parsed : parse includer text session = .ok document after) :
    ∃ made, fields.run includer.guarded session = .ok made after ∧ made.references = document.references := by
  obtain ⟨front, last, rfl, ends, read⟩ := outline.lexed.read
  obtain ⟨made, middle, ran, done⟩ := Run.ok_of_bind ((parse_iff_tree read outline.derives).mp parsed)
  cases done
  exact ⟨made, ran, rfl⟩

private theorem Includer.of_guarded {includer : Includer} {directive : Directive}
    {session after : Session} {root : Root}
    (done : includer.guarded directive session = .ok root after) : includer directive session = .ok root after := by
  obtain ⟨answer, _, done, guarded⟩ := Run.ok_of_bind done
  split at guarded
  case isTrue =>
    cases guarded
    exact done
  case isFalse => cases guarded

/-- The reference without its number. -/
def Reference.unnumbered (reference : Reference) : Reference := { reference with id := 0 }

/-- References of which something holds, and numbers aside of no other ones. -/
structure Reference.Only (holds : List Reference → Prop) (references : List Reference) : Prop where
  here : holds references
  alone : ∀ {listed}, holds listed → listed.map unnumbered = references.map unnumbered

namespace Include

open Files (FilePath)

mutual

/-- The references of a text that is read at a site. -/
inductive Lists (world : World) : Site → String → List Reference → Prop where
  | text {site : Site} {text : String} {lexemes : List Lexeme} {fields : Grammar.Fields} {references : List Reference}
      (outline : Outline text lexemes fields) (spliced : Splices world site fields.stops references) :
      Lists world site text references

/-- The references of stops one behind the other. A directive stands for those of its files. -/
inductive Splices (world : World) : Site → List Stop → List Reference → Prop where
  | none {site : Site} : Splices world site [] []
  | reference {site : Site} {path : KeyPath} {optional : Bool} {place : Position} {stops : List Stop}
      {references : List Reference} (id : Nat) (further : Splices world site stops references) :
      Splices world site (.reference path optional place :: stops) (⟨id, path.toList, optional, place⟩ :: references)
  | inclusion {site : Site} {directive : Directive} {files : List FilePath} {stops : List Stop}
      {own references : List Reference} (found : site.expand world directive.pattern = .ok files)
      (ordered : files.Pairwise (FilePath.le · · = true)) (gathered : Gathers world site files own)
      (further : Splices world site stops references) :
      Splices world site (.inclusion directive :: stops) (own ++ references)

/-- The references of files, one file after the other, each with what it includes in turn. -/
inductive Gathers (world : World) : Site → List FilePath → List Reference → Prop where
  | none {site : Site} : Gathers world site [] []
  | file {site : Site} {file : FilePath} {files : List FilePath} {text : String} {own references : List Reference}
      (read : world.files.read file = .ok text) (listed : Lists world (site.inside world.files file) text own)
      (further : Gathers world site files references) : Gathers world site (file :: files) (own ++ references)

end

variable {world : World} {site : Site}

private theorem Site.expand_ordered {written : String} {files : List FilePath}
    (expanded : site.expand world written = .ok files) : files.Pairwise (FilePath.le · · = true) := by
  obtain ⟨pattern, _, mapped⟩ := ok_of_bind expanded
  cases searched : world.files.search pattern with
  | error cause =>
    rw [searched] at mapped
    cases mapped
  | ok found =>
    rw [searched] at mapped
    cases mapped
    exact Files.Tree.search_ordered searched

/-- What an includer answers at a site are the references of the files that its directive asks for. -/
def Answers (world : World) (site : Site) (includer : Includer) : Prop :=
  ∀ {directive : Directive} {session after : Session} {root : Root}, includer directive session = .ok root after →
    ∃ files, site.expand world directive.pattern = .ok files ∧
      Reference.Only (Gathers world site files) root.references

variable {includer : Includer} {stops : List Stop} {references listed : List Reference}

private theorem Splices.of_yields (answered : Answers world site includer)
    (yields : Grammar.Yields includer.guarded stops references) : Splices world site stops references := by
  induction yields with
  | none => exact .none
  | reference id _ ih => exact .reference id ih
  | inclusion done _ ih =>
    obtain ⟨files, found, only⟩ := answered (Includer.of_guarded done)
    exact .inclusion found (Site.expand_ordered found) only.here ih

/-- Stops tell all of their references but the numbers. -/
private theorem Splices.unnumbered (answered : Answers world site includer)
    (yields : Grammar.Yields includer.guarded stops references) (spliced : Splices world site stops listed) :
    listed.map Reference.unnumbered = references.map Reference.unnumbered := by
  induction yields generalizing listed with
  | none =>
    cases spliced
    rfl
  | reference id _ ih =>
    cases spliced with
    | reference other further => exact congrArg (_ :: ·) (ih further)
  | inclusion done _ ih =>
    cases spliced with
    | inclusion found ordered gathered further =>
      obtain ⟨files, again, only⟩ := answered (Includer.of_guarded done)
      obtain rfl := Except.ok.inj (found.symm.trans again)
      rw [List.map_append, List.map_append, only.alone gathered, ih further]

/-- A text whose directives are answered so lists its references in order, and in no other way. -/
private theorem lists_of_parse {text : String} {session after : Session} {document : Document}
    (answered : Answers world site includer) (parsed : parse includer text session = .ok document after) :
    Reference.Only (Lists world site text) document.references := by
  constructor
  · obtain ⟨fields, lexemes, last, read, derives, _⟩ := tree_of_parse parsed
    have outline := outline_of_read read derives
    obtain ⟨made, ran, same⟩ := outline.run parsed
    exact same ▸ .text outline (.of_yields answered (Grammar.Fields.yields ran))
  · rintro listed ⟨outline, spliced⟩
    obtain ⟨made, ran, same⟩ := outline.run parsed
    exact same ▸ spliced.unnumbered answered (Grammar.Fields.yields ran)

private theorem gathers_of_gathered {files : List FilePath} {merged result : Document} {session after : Session}
    {loads : FilePath → Run Document}
    (each : ∀ {file before document behind}, loads file before = .ok document behind →
      ∃ text, world.files.read file = .ok text ∧
        Reference.Only (Lists world (site.inside world.files file) text) document.references)
    (ran : files.foldlM (gather loads) merged session = .ok result after) :
    ∃ own, result.references = merged.references ++ own ∧ Reference.Only (Gathers world site files) own := by
  induction files generalizing merged session with
  | nil =>
    cases ran
    refine ⟨[], (List.append_nil _).symm, .none, fun gathered => ?_⟩
    cases gathered
    rfl
  | cons file files ih =>
    rw [List.foldlM_cons] at ran
    obtain ⟨further, middle, first, ran⟩ := Run.ok_of_bind ran
    obtain ⟨_, before, _, first⟩ := Run.ok_of_bind first
    obtain ⟨document, behind, loaded, made⟩ := Run.ok_of_bind first
    cases made
    obtain ⟨own, whole, others⟩ := ih ran
    obtain ⟨text, read, only⟩ := each loaded
    refine ⟨document.references ++ own, by rw [whole, List.append_assoc], .file read only.here others.here, ?_⟩
    intro listed gathered
    cases gathered with
    | file again inside behind =>
      obtain rfl := Except.ok.inj (again.symm.trans read)
      rw [List.map_append, List.map_append, only.alone inside, others.alone behind]

private theorem answer_answers (world : World) (site : Site) : Answers world site (answer world site) := by
  induction site using Site.induct world.files with
  | step site inside =>
  intro directive session after root done
  rw [answer_eq] at done
  obtain ⟨files, merged, before, expanded, gathered, _, rfl⟩ := gathered_of_answer done
  obtain ⟨own, same, only⟩ : ∃ own, merged.references = [] ++ own ∧ Reference.Only (Gathers world site files) own := by
    refine gathers_of_gathered (fun {file _ _ _} loaded => ?_) gathered
    rw [load_eq] at loaded
    obtain ⟨fresh, text, read, parsed⟩ := parsed_of_load loaded
    exact ⟨text, read, lists_of_parse (inside file text fresh read) parsed⟩
  have whole : merged.root.references = own := same
  exact ⟨files, expanded, whole ▸ only⟩

section Relisting

variable {other : Files.Tree}

private theorem Site.expand_relisted (relisted : world.files.Relisted other) (site : Site) (written : String) :
    site.expand { world with files := other } written = site.expand world written := by
  simp only [Site.expand, funext relisted.search]
  rfl

private theorem Site.seek_relisted (relisted : world.files.Relisted other) (site : Site) (written : String) :
    site.seek { world with files := other } written = site.seek world written := by
  simp only [Site.seek, Site.expand_relisted relisted]
  rfl

private theorem Site.inside_relisted (relisted : world.files.Relisted other) (site : Site) (file : FilePath) :
    site.inside other file = site.inside world.files file := by
  rw [Site.inside, Site.inside, relisted.identity]

/-- Directives are answered alike however directories list what they hold. -/
private theorem answer_relisted (relisted : world.files.Relisted other) (site : Site) :
    answer { world with files := other } site = answer world site := by
  induction site using Site.induct world.files with
  | step site inside =>
  have loads : load { world with files := other } site = load world site := by
    rw [load_eq, load_eq]
    funext file
    unfold loadBy
    simp only [relisted.identity, relisted.read, Site.inside_relisted relisted]
    split
    case isTrue => rfl
    case isFalse fresh =>
      cases read : world.files.read file with
      | error cause => rfl
      | ok text => exact congrArg (parse · text) (inside file text (by simpa using fresh) read)
  rw [answer_eq, answer_eq, loads]
  funext directive
  simp only [answerBy, Site.seek_relisted relisted]

end Relisting

end Include

open Include (World Site Lists)

/-- A document lists its references as they are met when each file is read from start to end: those of an
included file where its directive stands, the files of a pattern in the order of their paths, each
reference with the path, the mark and the place of what is written. Numbers aside, no other list is one of
the text. Where directories list what they hold in another order, the document is the same. -/
theorem parse_lists_in_order (world : World) (site : Site) (text : String) (session : Session) (document : Document)
    (done : ((parse (Include.answer world site) text).outcome session).1 = .ok document) :
    Lists world site text document.references ∧
      (∀ listed, Lists world site text listed →
        listed.map Reference.unnumbered = document.references.map Reference.unnumbered) ∧
      ∀ other, world.files.Relisted other →
        ((parse (Include.answer { world with files := other } site) text).outcome session).1 = .ok document := by
  obtain ⟨after, parsed⟩ := Run.ok_of_outcome done
  have only := Include.lists_of_parse (Include.answer_answers world site) parsed
  refine ⟨only.here, fun _ => only.alone, fun other relisted => ?_⟩
  rwa [Include.answer_relisted relisted]

/-- Two files of one pattern, which share a third, stand between two references here. -/
def sharedBetween : String := "a = $\x7b?first\x7d\ninclude \"[lr]*.conf\"\nb = $\x7blist\x7d"

/-- The files of the pattern are listed in their order, as far as they go. -/
theorem parse_lists_shared_between : ∃ document other,
    ((parse (Include.answer .diamond (.ofFolder ⟨""⟩)) sharedBetween).outcome .start).1 = .ok document ∧
      document.references.map (·.path) = [["first"], ["more"], ["more"], ["HOME"], ["list"]] ∧
      Lists .diamond (.ofFolder ⟨""⟩) sharedBetween document.references ∧
      World.diamond.files.Relisted other ∧ other.root.held = World.diamond.files.root.held.reverse ∧
      ((parse (Include.answer { World.diamond with files := other } (.ofFolder ⟨""⟩)) sharedBetween).outcome
        .start).1 = .ok document := by
  have paths : (((parse (Include.answer .diamond (.ofFolder ⟨""⟩)) sharedBetween).outcome .start).1.toOption.map
      fun document => document.references.map (·.path)) = some [["first"], ["more"], ["more"], ["HOME"], ["list"]] := by
    decide +kernel
  obtain ⟨document, kept, paths⟩ := Option.map_eq_some_iff.mp paths
  have done : ((parse (Include.answer .diamond (.ofFolder ⟨""⟩)) sharedBetween).outcome .start).1 = .ok document := by
    generalize ((parse _ _).outcome _).1 = outcome at kept ⊢
    cases outcome with
    | error fault => cases kept
    | ok found => exact congrArg _ (Option.some.inj kept)
  obtain ⟨lists, _, relists⟩ := parse_lists_in_order .diamond (.ofFolder ⟨""⟩) sharedBetween .start document done
  have reversed : World.diamond.files.Relisted ⟨.folder World.diamond.files.root.held.reverse, []⟩ := by
    refine ⟨.of_perm {} (by decide) (List.reverse_perm _).symm ?_, rfl⟩
    simp only [List.forall_mem_cons]
    exact ⟨.regular _ _, .regular _ _, .regular _ _, .regular _ _, by simp⟩
  exact ⟨document, _, done, paths, lists, reversed, rfl, relists _ reversed⟩

end Hocon
