import Hocon.Proofs.Include.Directives
import Hocon.Proofs.Include.Steps
import Mathlib.Logic.Relation

/-! The graph of files. Which file includes which is told by their directives and by the search for
files alone. Reading goes along the walks in this graph, and meets a cycle just where a walk comes
back to a file that it has passed. -/
namespace Hocon.Include

open Files (FilePath)

/-- A file that directives find from a directory. -/
def Finds (world : World) (base : FilePath) (asked : List Directive) (file : FilePath) : Prop :=
  ∃ directive ∈ asked, ∃ files,
    (Site.ofFolder base).expand world directive.pattern = .ok files ∧ file ∈ files

/-- A file that the directives of another one find next to that one. -/
def Includes (world : World) (file other : FilePath) : Prop :=
  ∃ text, world.files.read file = .ok text ∧ Finds world file.folder (directivesOf text) other

/-- The files by which directives lead to a file, each including the next, with the last of them
first. -/
inductive Leads (world : World) (base : FilePath) (asked : List Directive) :
    List FilePath → FilePath → Prop where
  | found {file : FilePath} (finds : Finds world base asked file) : Leads world base asked [] file
  | further {walk : List FilePath} {file other : FilePath} (way : Leads world base asked walk file)
      (includes : Includes world file other) : Leads world base asked (file :: walk) other

/-- The site inside all files of a walk. -/
def Site.along (files : Files.Tree) (site : Site) (walk : List FilePath) : Site :=
  walk.foldr (fun file outer => outer.inside files file) site

/-- The directives lead, from a site, through files to one that is being included there. -/
def Returns (world : World) (site : Site) (asked : List Directive) (walk : List FilePath)
    (file : FilePath) : Prop :=
  Leads world site.base asked walk file ∧
    world.files.identity file ∈ (site.along world.files walk).chain

/-- The graph of files has a cycle that directives lead to from a site, or leads back to a file that
is being included there. -/
def Cyclic (world : World) (site : Site) (asked : List Directive) : Prop :=
  ∃ walk file, Leads world site.base asked walk file ∧
    (world.files.identity file ∈ site.chain ∨ ∃ other, Relation.TransGen (Includes world) file other ∧
      world.files.identity other = world.files.identity file)

/-- A result that is told by the graph of files. A cycle is reported where a walk returns, and only
if there is one, and then no result is a good one. -/
structure Exact (world : World) (site : Site) (asked : List Directive) {α : Type}
    (result : Except Fault α) : Prop where
  reported : ∀ path, result = .error (.includeCycle path) →
    ∃ walk file, Returns world site asked walk file ∧ file.text = path
  acyclic : ¬ Cyclic world site asked → ∀ path, result ≠ .error (.includeCycle path)
  cyclic : Cyclic world site asked → ∀ value, result ≠ .ok value

section Walks

variable {world : World} {site : Site} {asked : List Directive} {walk : List FilePath}
  {file other : FilePath} {text path : String}

private theorem Leads.behind (finds : Finds world site.base asked file)
    (read : world.files.read file = .ok text)
    (leads : Leads world file.folder (directivesOf text) walk other) :
    Leads world site.base asked (walk ++ [file]) other := by
  induction leads with
  | found further => exact .further (.found finds) ⟨text, read, further⟩
  | further way includes ih => exact .further ih includes

private theorem chain_along (files : Files.Tree) (site : Site) (walk : List FilePath) :
    (site.along files walk).chain = walk.map files.identity ++ site.chain := by
  induction walk with
  | nil => rfl
  | cons file walk ih => rw [List.map_cons, List.cons_append, ← ih]; rfl

private theorem Leads.onward (leads : Leads world site.base asked walk file)
    (path : Relation.TransGen (Includes world) file other) :
    ∃ further, file ∈ further ∧ Leads world site.base asked further other := by
  induction path with
  | single includes => exact ⟨file :: walk, List.mem_cons_self, .further leads includes⟩
  | tail path includes ih =>
    obtain ⟨further, member, way⟩ := ih
    exact ⟨_ :: further, List.mem_cons_of_mem _ member, .further way includes⟩

/-- Every file of a walk is led to, and the graph leads on from it. -/
private theorem Leads.through (leads : Leads world site.base asked walk file) (member : other ∈ walk) :
    ∃ before, Leads world site.base asked before other ∧ Relation.TransGen (Includes world) other file := by
  induction leads with
  | found finds => cases member
  | further way includes ih =>
    rcases List.mem_cons.mp member with rfl | earlier
    · exact ⟨_, way, .single includes⟩
    · obtain ⟨before, leads, path⟩ := ih earlier
      exact ⟨before, leads, path.tail includes⟩

/-- There is a cycle just where a walk returns. -/
theorem cyclic_iff_returns :
    Cyclic world site asked ↔ ∃ walk file, Returns world site asked walk file := by
  constructor
  · rintro ⟨walk, file, leads, known | ⟨other, path, same⟩⟩
    · refine ⟨walk, file, leads, ?_⟩
      rw [chain_along]
      exact List.mem_append_right _ known
    · obtain ⟨further, member, way⟩ := leads.onward path
      refine ⟨further, other, way, ?_⟩
      rw [chain_along, same]
      exact List.mem_append_left _ (List.mem_map_of_mem member)
  · rintro ⟨walk, file, leads, known⟩
    rw [chain_along] at known
    rcases List.mem_append.mp known with again | started
    · obtain ⟨earlier, member, same⟩ := List.mem_map.mp again
      obtain ⟨before, way, path⟩ := leads.through member
      exact ⟨before, earlier, way, .inr ⟨file, path, same.symm⟩⟩
    · exact ⟨walk, file, leads, .inl started⟩

private theorem loaded_of_finds (answered : ∀ directive ∈ asked, Includer.Answers (answer world site) directive)
    (finds : Finds world site.base asked file) :
    ∃ before document behind, load world site file before = .ok document behind := by
  obtain ⟨directive, member, files, expanded, found⟩ := finds
  obtain ⟨before, root, behind, done⟩ := answered directive member
  rw [answer_eq] at done
  obtain ⟨others, merged, _, again, gathered, _, _⟩ := gathered_of_answer done
  obtain rfl : files = others := Except.ok.inj (expanded.symm.trans again)
  exact read_of_gathered gathered file found

private theorem loaded_of_leads (answered : ∀ directive ∈ asked, Includer.Answers (answer world site) directive)
    (leads : Leads world site.base asked walk file) :
    ∃ before document behind,
      load world (site.along world.files walk) file before = .ok document behind := by
  induction leads with
  | found finds => exact loaded_of_finds answered finds
  | @further walk file other way includes ih =>
    obtain ⟨before, document, behind, loaded⟩ := ih
    rw [load_eq] at loaded
    obtain ⟨_, text, read, parsed⟩ := parsed_of_load loaded
    obtain ⟨same, again, finds⟩ := includes
    obtain rfl : text = same := Except.ok.inj (read.symm.trans again)
    exact loaded_of_finds (answers_of_parse (answer_objects world _) parsed) finds

/-- Where all directives are answered there is no cycle: a file that is read is not being
included. -/
private theorem acyclic_of_answers
    (answered : ∀ directive ∈ asked, Includer.Answers (answer world site) directive) :
    ¬ Cyclic world site asked := by
  intro cyclic
  obtain ⟨walk, file, leads, known⟩ := cyclic_iff_returns.mp cyclic
  obtain ⟨before, document, behind, loaded⟩ := loaded_of_leads answered leads
  rw [load_eq] at loaded
  exact (parsed_of_load loaded).1 known

/-- A cycle in the answer to a directive is one that the directive leads to. -/
private theorem returns_of_refuses (site : Site) {directive : Directive} (member : directive ∈ asked)
    (refuses : Includer.Refuses (answer world site) directive (.includeCycle path)) :
    ∃ walk file, Returns world site asked walk file ∧ file.text = path := by
  induction site using Site.induct world.files generalizing asked directive with
  | step site inside =>
  obtain ⟨before, behind, failed⟩ := refuses
  rw [answer_eq] at failed
  obtain ⟨files, expanded, file, found, before, behind, failed⟩ := cycle_of_answer failed
  have finds : Finds world site.base asked file := ⟨directive, member, files, expanded, found⟩
  rw [load_eq] at failed
  rcases cycle_of_load failed with ⟨known, same⟩ | ⟨fresh, text, read, failed⟩
  · exact ⟨[], file, ⟨.found finds, known⟩, same⟩
  · obtain ⟨next, asks, refuses⟩ := refuses_of_parse (answer_objects world _) failed
    obtain ⟨walk, last, ⟨leads, known⟩, same⟩ := inside file text fresh read asks refuses
    refine ⟨walk ++ [file], last, ⟨leads.behind finds read, ?_⟩, same⟩
    simpa [Site.along] using known

/-- A result is exact that is good only with all directives answered, and reports a cycle only if
the answer to one of them does. -/
theorem Exact.of_answers {α : Type} {result : Except Fault α}
    (good : ∀ value, result = .ok value →
      ∀ directive ∈ asked, Includer.Answers (answer world site) directive)
    (bad : ∀ path, result = .error (.includeCycle path) →
      ∃ directive ∈ asked, Includer.Refuses (answer world site) directive (.includeCycle path)) :
    Exact world site asked result where
  reported path failed := by
    obtain ⟨directive, member, refuses⟩ := bad path failed
    exact returns_of_refuses site member refuses
  acyclic none path failed := by
    obtain ⟨directive, member, refuses⟩ := bad path failed
    obtain ⟨walk, file, returns, _⟩ := returns_of_refuses site member refuses
    exact none (cyclic_iff_returns.mpr ⟨walk, file, returns⟩)
  cyclic cyclic value done := acyclic_of_answers (good value done) cyclic

end Walks

end Hocon.Include
