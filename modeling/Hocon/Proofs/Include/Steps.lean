import Hocon.Include.Files
import Hocon.Proofs.Grammar.Progress
import Hocon.Proofs.Run

/-! One step of including: reading a file with a way to answer its directives, and answering a
directive with a way to read files. Including is these two steps in turn. -/
namespace Hocon.Include

open Files (FilePath)

/-- The site of what a file includes that is itself read at a site. -/
def Site.inside (files : Files.Tree) (site : Site) (file : FilePath) : Site :=
  ⟨file.folder, files.identity file :: site.chain⟩

/-- What passes from the sites inside the files that can be read at a site to the site itself holds
at every site: a file that is entered is one less that is outside the chain. -/
theorem Site.induct (files : Files.Tree) {motive : Site → Prop}
    (step : ∀ site, (∀ file text, files.identity file ∉ site.chain → files.read file = .ok text →
      motive (site.inside files file)) → motive site) (site : Site) : motive site := by
  refine step site fun file text fresh read => ?_
  exact induct files step (site.inside files file)
termination_by outside (known files) site.chain
decreasing_by
  obtain ⟨_, held⟩ := known_of_read read
  exact outside_cons_lt held fresh

variable {world : World} {site : Site}

/-- Read a file, its directives answered at the sites they stand at. -/
def loadBy (answers : Site → Includer) (world : World) (site : Site) (file : FilePath) : Run Document :=
  if site.chain.contains (world.files.identity file) then throw (.includeCycle file.text)
  else
    match world.files.read file with
    | .error cause => throw (.unreadableInclude file.text cause)
    | .ok text => parse (answers (site.inside world.files file)) text

/-- One more file, merged into what was read before it. -/
def gather (loads : FilePath → Run Document) (merged : Document) (file : FilePath) : Run Document := do
  Run.note (.loading file.text)
  let document ← loads file
  return ⟨Object.merge merged.fields document.fields, merged.references ++ document.references⟩

/-- Answer a directive by files that are read in a given way. -/
def answerBy (loads : FilePath → Run Document) (world : World) (site : Site) : Includer := fun directive => do
  let files ← site.seek world directive.pattern
  if files.isEmpty then
    if directive.required then throw (.noMatch directive.pattern)
    else
      Run.note (.unmatched directive.pattern)
      return .empty
  else
    let merged ← files.foldlM (gather loads) ⟨[], []⟩
    return merged.root

section Reading

variable {answers others : Site → Includer} {file : FilePath} {text : String} {cause : Files.ReadFault}

theorem loadBy_known (known : world.files.identity file ∈ site.chain) :
    loadBy answers world site file = throw (.includeCycle file.text) := by
  simp only [loadBy, List.contains_iff_mem, known, if_true]

theorem loadBy_unread (fresh : world.files.identity file ∉ site.chain)
    (unread : world.files.read file = .error cause) :
    loadBy answers world site file = throw (.unreadableInclude file.text cause) := by
  simp only [loadBy, List.contains_iff_mem, fresh, if_false, unread]

theorem loadBy_read (fresh : world.files.identity file ∉ site.chain)
    (read : world.files.read file = .ok text) :
    loadBy answers world site file = parse (answers (site.inside world.files file)) text := by
  simp only [loadBy, List.contains_iff_mem, fresh, if_false, read]

/-- How directives are answered counts only inside the files that can be read. -/
theorem loadBy_congr
    (alike : ∀ file text, world.files.identity file ∉ site.chain → world.files.read file = .ok text →
      answers (site.inside world.files file) = others (site.inside world.files file)) :
    loadBy answers world site = loadBy others world site := by
  funext file
  by_cases known : world.files.identity file ∈ site.chain
  · rw [loadBy_known known, loadBy_known known]
  · cases read : world.files.read file with
    | error cause => rw [loadBy_unread known read, loadBy_unread known read]
    | ok text => rw [loadBy_read known read, loadBy_read known read, alike file text known read]

end Reading

theorem load_eq (world : World) (site : Site) : load world site = loadBy (answer world) world site := by
  funext file
  rw [load]
  by_cases known : world.files.identity file ∈ site.chain
  · simp only [loadBy_known known, known, dite_true]
  · simp only [known, dite_false]
    split
    case h_1 cause unread => rw [loadBy_unread known unread]
    case h_2 text read => rw [loadBy_read known read, Site.inside]

theorem answer_eq (world : World) (site : Site) : answer world site = answerBy (load world site) world site := by
  funext directive
  rw [answer, answerBy]
  rfl

variable {answers : Site → Includer} {loads : FilePath → Run Document} {directive : Directive} {session after : Session}
  {merged result : Document} {files : List FilePath} {fault : Fault}

namespace Site

variable {written : String}

/-- What is looked for is missing a home directory, or the search has a fault of its own. -/
theorem error_of_expand (failed : site.expand world written = .error fault) :
    fault = .noHome written ∨ ∃ cause, fault = refusal written cause := by
  unfold expand at failed
  cases anchored : site.anchor world written with
  | error cause =>
    rw [anchored] at failed
    cases failed
    unfold anchor at anchored
    split at anchored
    · split at anchored <;> cases anchored
      exact .inl rfl
    · split at anchored <;> cases anchored
  | ok pattern =>
    rw [anchored] at failed
    change (world.files.search pattern).mapError (refusal written) = .error fault at failed
    cases found : world.files.search pattern with
    | error cause =>
      rw [found] at failed
      exact .inr ⟨cause, (Except.error.inj failed).symm⟩
    | ok files =>
      rw [found] at failed
      cases failed

theorem seek_eq {pattern : FilePath} (anchored : site.anchor world written = .ok pattern) :
    site.seek world written =
      (Run.note (.searched pattern.text) >>= fun _ => Run.ofExcept (site.expand world written)) := by
  rw [seek, anchored]
  rfl

private theorem ok_of_seek (done : site.seek world written session = .ok files after) :
    site.expand world written = .ok files ∧ after.nextId = session.nextId := by
  obtain ⟨pattern, _, anchored, further⟩ := Run.ok_of_bind done
  obtain ⟨_, _, noted, sought⟩ := Run.ok_of_bind further
  cases noted
  obtain ⟨_, rfl⟩ := Run.ok_of_ofExcept anchored
  obtain ⟨expanded, rfl⟩ := Run.ok_of_ofExcept sought
  exact ⟨expanded, rfl⟩

theorem error_of_seek (failed : site.seek world written session = .error fault after) :
    site.expand world written = .error fault := by
  cases anchored : site.anchor world written with
  | error cause =>
    rw [seek, anchored] at failed
    cases failed
    rw [expand, anchored]
    rfl
  | ok pattern =>
    rw [seek_eq anchored] at failed
    cases expanded : site.expand world written with
    | error cause =>
      rw [expanded] at failed
      cases failed
      rfl
    | ok files =>
      rw [expanded] at failed
      cases failed

end Site

/-- A file that is read is outside the chain, and a text. -/
theorem parsed_of_load {file : FilePath} {document : Document}
    (done : loadBy answers world site file session = .ok document after) :
    world.files.identity file ∉ site.chain ∧ ∃ text, world.files.read file = .ok text ∧
      parse (answers (site.inside world.files file)) text session = .ok document after := by
  by_cases known : world.files.identity file ∈ site.chain
  · rw [loadBy_known known] at done
    cases done
  cases read : world.files.read file with
  | error cause =>
    rw [loadBy_unread known read] at done
    cases done
  | ok text =>
    rw [loadBy_read known read] at done
    exact ⟨known, text, rfl, done⟩

/-- A cycle in reading a file is one that the file closes, or is met further inside. -/
theorem cycle_of_load {file : FilePath} {path : String}
    (failed : loadBy answers world site file session = .error (.includeCycle path) after) :
    (world.files.identity file ∈ site.chain ∧ file.text = path) ∨
      (world.files.identity file ∉ site.chain ∧ ∃ text, world.files.read file = .ok text ∧
        parse (answers (site.inside world.files file)) text session = .error (.includeCycle path) after) := by
  by_cases known : world.files.identity file ∈ site.chain
  · rw [loadBy_known known] at failed
    cases failed
    exact .inl ⟨known, rfl⟩
  cases read : world.files.read file with
  | error cause =>
    rw [loadBy_unread known read] at failed
    cases failed
  | ok text =>
    rw [loadBy_read known read] at failed
    exact .inr ⟨known, text, rfl, failed⟩

/-- Every file of a fold that ends well was read. -/
theorem read_of_gathered (done : files.foldlM (gather loads) merged session = .ok result after) :
    ∀ file ∈ files, ∃ before document behind, loads file before = .ok document behind := by
  induction files generalizing merged session with
  | nil => simp
  | cons file files ih =>
    rw [List.foldlM_cons] at done
    obtain ⟨further, middle, first, done⟩ := Run.ok_of_bind done
    obtain ⟨_, before, _, first⟩ := Run.ok_of_bind first
    obtain ⟨document, behind, loaded, _⟩ := Run.ok_of_bind first
    exact List.forall_mem_cons.mpr ⟨⟨before, document, behind, loaded⟩, ih done⟩

/-- A fold over files fails as reading one of them does. -/
theorem failed_of_gathered (failed : files.foldlM (gather loads) merged session = .error fault after) :
    ∃ file ∈ files, ∃ before behind, loads file before = .error fault behind := by
  induction files generalizing merged session with
  | nil => cases failed
  | cons file files ih =>
    rw [List.foldlM_cons] at failed
    rcases Run.error_of_bind failed with first | ⟨further, middle, _, failed⟩
    · rcases Run.error_of_bind first with noted | ⟨_, before, _, first⟩
      · cases noted
      · rcases Run.error_of_bind first with loaded | ⟨document, behind, _, made⟩
        · exact ⟨file, List.mem_cons_self, before, after, loaded⟩
        · cases made
    · obtain ⟨found, member, refused⟩ := ih failed
      exact ⟨found, List.mem_cons_of_mem _ member, refused⟩

/-- An answer is the files of a pattern, one merged into the other. -/
theorem gathered_of_answer {root : Root} (done : answerBy loads world site directive session = .ok root after) :
    ∃ files merged before, site.expand world directive.pattern = .ok files ∧
      files.foldlM (gather loads) ⟨[], []⟩ before = .ok merged after ∧
      before.nextId = session.nextId ∧ root = merged.root := by
  obtain ⟨files, searched, sought, done⟩ := Run.ok_of_bind done
  obtain ⟨expanded, same⟩ := Site.ok_of_seek sought
  cases files with
  | nil =>
    by_cases required : directive.required = true
    · simp only [List.isEmpty_nil, if_true, required] at done
      cases done
    · simp only [List.isEmpty_nil, if_true, required] at done
      cases done
      exact ⟨[], ⟨[], []⟩, _, expanded, rfl, same, rfl⟩
  | cons file files =>
    obtain ⟨merged, _, folded, done⟩ := Run.ok_of_bind done
    cases done
    exact ⟨file :: files, merged, searched, expanded, folded, same, rfl⟩

private theorem expand_local {written : String} (failed : site.expand world written = .error fault) :
    fault.Local := by
  rcases Site.error_of_expand failed with rfl | ⟨cause, rfl⟩
  · exact rfl
  · cases cause <;> exact rfl

/-- A cycle in an answer was met in reading one of the files of the pattern. -/
theorem cycle_of_answer {path : String}
    (failed : answerBy loads world site directive session = .error (.includeCycle path) after) :
    ∃ files, site.expand world directive.pattern = .ok files ∧ ∃ file ∈ files,
      ∃ before behind, loads file before = .error (.includeCycle path) behind := by
  rcases Run.error_of_bind failed with sought | ⟨files, searched, sought, failed⟩
  · cases expand_local (Site.error_of_seek sought)
  · refine ⟨files, (Site.ok_of_seek sought).1, ?_⟩
    have failed : (if files.isEmpty then _ else _ : Run Root) searched = .error (.includeCycle path) after :=
      failed
    split at failed
    · split at failed <;> cases failed
    · rcases Run.error_of_bind failed with folded | ⟨merged, _, _, failed⟩
      · exact failed_of_gathered folded
      · cases failed

theorem answer_objects (world : World) (site : Site) : Includer.Objects (answer world site) := by
  intro directive session after root done
  rw [answer_eq] at done
  obtain ⟨_, merged, _, _, _, _, rfl⟩ := gathered_of_answer done
  exact ⟨merged.fields, rfl⟩

end Hocon.Include
