import Hocon.Proofs.Include.Walks
import Hocon.Proofs.Loading

namespace Hocon.Include

open Files (FilePath)

section Nesting

/-- The files of a tree by what tells them apart. -/
def texts (files : Files.Tree) : List (List Files.Component × Files.Node) :=
  (known files).filter fun entry => !entry.2.isFolder

private theorem texts_of_read {files : Files.Tree} {path : FilePath} {text : String}
    (read : files.read path = .ok text) : ∃ node, (files.identity path, node) ∈ texts files := by
  cases located : files.locate path with
  | error cause =>
    rw [Files.Tree.read, located] at read
    cases read
  | ok node =>
    obtain ⟨trail, walked, held⟩ := Files.Tree.at?_of_locate located
    refine ⟨node, List.mem_filter.mpr ⟨?_, ?_⟩⟩
    · rw [Files.Tree.identity, walked]
      exact List.mem_map.mpr ⟨(trail.place, node), Files.Node.mem_contents_of_at? held, rfl⟩
    · cases node with
      | regular => rfl
      | directory =>
        rw [Files.Tree.read, located] at read
        cases read

/-- Answer directives to a limited depth, and below that, or where a file is being included
twice, in another way. -/
def answerWithin (other : Includer) (world : World) : Nat → Site → Includer
  | 0, _ => other
  | depth + 1, site =>
    if site.chain.Nodup then answerBy (loadBy (answerWithin other world depth) world site) world site
    else other

/-- From a site on, no more files can be entered than are outside its chain. -/
private theorem answerWithin_eq (other : Includer) {world : World} {depth : Nat} {site : Site}
    (distinct : site.chain.Nodup) (deep : outside (texts world.files) site.chain < depth) :
    answerWithin other world depth site = answer world site := by
  induction depth generalizing site with
  | zero => omega
  | succ depth ih =>
    have loads : loadBy (answerWithin other world depth) world site = load world site := by
      rw [load_eq]
      refine loadBy_congr fun file text fresh read => ih (List.nodup_cons.mpr ⟨fresh, distinct⟩) ?_
      obtain ⟨node, held⟩ := texts_of_read read
      have fewer := outside_cons_lt held fresh
      exact Nat.lt_of_lt_of_le fewer (Nat.le_of_lt_succ deep)
    rw [answerWithin, if_pos distinct, loads, answer_eq]

/-- No site is inside more files than there are. -/
private theorem answerWithin_count (other : Includer) {world : World} {site : Site}
    (distinct : site.chain.Nodup) :
    answerWithin other world ((texts world.files).length + 1) site = answer world site :=
  answerWithin_eq other distinct (Nat.lt_succ_of_le List.countP_le_length)

end Nesting

end Hocon.Include

namespace Hocon.Load

open Include (World Site)

/-- Where a load starts to include. -/
def site (world : World) : Load → Site
  | .text _ => .ofFolder ⟨"."⟩
  | .file path => .ofFile world.files path
  | .fileIn path base => .ofFileIn world.files path base

/-- The directives that a load starts with. -/
def asked (world : World) : Load → List Directive
  | .text content => directivesOf content
  | .file path | .fileIn path _ =>
    match world.files.read path with
    | .ok content => directivesOf content
    | .error _ => []

/-- A load with its directives answered in a given way. -/
def runBy (includer : Includer) (world : World) (load : Load) : Run Config :=
  match load with
  | .text content => do
    let document ← parse includer content
    let value ← document.root.resolve world.environment
    return ⟨value, none⟩
  | .file path | .fileIn path _ =>
    match world.files.read path with
    | .error cause => throw (.unreadableDocument path.text cause)
    | .ok content => do
      Run.note (.parsing path.text (load.site world).base.text)
      let document ← parse includer content
      Run.note (.pending document.references.length)
      let value ← document.root.resolve world.environment
      return ⟨value, some path⟩

private theorem run_eq (world : World) (load : Load) :
    load.run world = load.runBy (Include.answer world (load.site world)) world := by
  cases load with
  | text content => rfl
  | file path | fileIn path base =>
    cases read : world.files.read path with
    | error cause => simp only [run, runBy, Config.ofFile, Config.ofFileIn, Config.load, read]
    | ok content =>
      simp only [run, runBy, Config.ofFile, Config.ofFileIn, Config.load, read]
      rfl

private theorem nodup_chain (world : World) (load : Load) : (load.site world).chain.Nodup := by
  cases load <;> simp [site, Site.ofFolder, Site.ofFile, Site.ofFileIn]

variable {world : World} {includer : Includer} {load : Load} {session after : Session}

private theorem resolving_acyclic (document : Document) (config : Value → Config) (path : String) :
    (document.root.resolve world.environment >>= fun value => pure (config value)) session ≠
      .error (.includeCycle path) after := by
  intro failed
  rcases Run.error_of_bind failed with failed | ⟨value, _, _, failed⟩
  · exact Root.resolve_ne_includeCycle world.environment document.root session path (Run.outcome_of_error failed)
  · cases failed

private theorem answers_of_run {config : Config} (objects : includer.Objects)
    (done : load.runBy includer world session = .ok config after) :
    ∀ directive ∈ load.asked world, includer.Answers directive := by
  cases load with
  | text content =>
    obtain ⟨document, _, parsed, _⟩ := Run.ok_of_bind done
    exact answers_of_parse objects parsed
  | file path | fileIn path base =>
    simp only [runBy, asked] at done ⊢
    cases read : world.files.read path with
    | error cause => simp
    | ok content =>
      simp only [read] at done
      obtain ⟨_, noted, _, done⟩ := Run.ok_of_bind done
      obtain ⟨document, _, parsed, _⟩ := Run.ok_of_bind done
      exact answers_of_parse objects parsed

/-- A load meets a cycle of includes only in the answer to one of its directives. -/
private theorem refuses_of_run {path : String} (objects : includer.Objects)
    (failed : load.runBy includer world session = .error (.includeCycle path) after) :
    ∃ directive ∈ load.asked world, includer.Refuses directive (.includeCycle path) := by
  cases load with
  | text content =>
    rcases Run.error_of_bind failed with parsed | ⟨document, middle, _, failed⟩
    · exact refuses_of_parse objects parsed
    · exact absurd failed (resolving_acyclic document _ path)
  | file file | fileIn file base =>
    simp only [runBy, asked] at failed ⊢
    cases read : world.files.read file with
    | error cause =>
      simp only [read] at failed
      cases failed
    | ok content =>
      simp only [read] at failed
      rcases Run.error_of_bind failed with noted | ⟨_, _, _, failed⟩
      · cases noted
      rcases Run.error_of_bind failed with parsed | ⟨document, _, _, failed⟩
      · exact refuses_of_parse objects parsed
      rcases Run.error_of_bind failed with noted | ⟨_, _, _, failed⟩
      · cases noted
      exact absurd failed (resolving_acyclic document _ path)

end Hocon.Load

namespace Hocon.Include

open Files (FilePath)

/-- Including ends: directives that are answered no deeper than there are files, and never where one
file is being included twice, have the same answers. What every load and every answer comes to is
told by the graph of files: a cycle is reported only where the next file is being included already,
and never without a cycle in the graph; with one, there is no good result. -/
theorem including_ends_exactly (world : World) :
    (∀ (other : Includer) (load : Load), (load.site world).chain.Nodup ∧
      load.runBy (answerWithin other world ((texts world.files).length + 1) (load.site world)) world =
        load.run world) ∧
    (∀ (other : Includer) (site : Site), site.chain.Nodup →
      answerWithin other world ((texts world.files).length + 1) site = answer world site) ∧
    (∀ (load : Load) (session : Session),
      Exact world (load.site world) (load.asked world) ((load.run world).outcome session).1) ∧
    ∀ (site : Site) (directive : Directive) (session : Session),
      Exact world site [directive] ((answer world site directive).outcome session).1 := by
  refine ⟨fun other load => ⟨load.nodup_chain world, ?_⟩,
    fun other site distinct => answerWithin_count other distinct, fun load session => ?_,
    fun site directive session => ?_⟩
  · rw [answerWithin_count other (load.nodup_chain world), load.run_eq]
  · rw [load.run_eq]
    refine .of_answers (fun config done => ?_) fun path failed => ?_
    · obtain ⟨after, ran⟩ := Run.ok_of_outcome done
      exact Load.answers_of_run (answer_objects world _) ran
    · obtain ⟨after, ran⟩ := Run.error_of_outcome failed
      exact Load.refuses_of_run (answer_objects world _) ran
  · refine .of_answers (fun root done => ?_) fun path failed => ?_
    · obtain ⟨after, ran⟩ := Run.ok_of_outcome done
      exact List.forall_mem_singleton.mpr ⟨session, root, after, ran⟩
    · obtain ⟨after, ran⟩ := Run.error_of_outcome failed
      exact ⟨directive, List.mem_singleton_self directive, session, after, ran⟩

/-- A file whose pattern finds one that includes it by another name. -/
def World.ring : World where
  files := ⟨.folder [
    ("main.conf", .file "include \"parts/*.conf\"".toUTF8),
    ("parts", .folder [
      ("plain.conf", .file "plain = 1".toUTF8),
      ("round.conf", .file "include \"../main.conf\"".toUTF8)])], []⟩
  environment := fun _ => none
  accountHome := some "/root"

/-- A ring is reported and never loaded; what is reached by two ways is no cycle. -/
theorem ring_reported_diamond_loaded :
    (∃ walk file, Returns .ring ((Load.file ⟨"main.conf"⟩).site .ring)
      ((Load.file ⟨"main.conf"⟩).asked .ring) walk file ∧ file.text = "parts/../main.conf") ∧
    (∀ session config, (((Load.file ⟨"main.conf"⟩).run .ring).outcome session).1 ≠ .ok config) ∧
    (∃ config, (((Load.file ⟨"main.conf"⟩).run .diamond).outcome .start).1 = .ok config) ∧
    ¬ Cyclic .diamond ((Load.file ⟨"main.conf"⟩).site .diamond) ((Load.file ⟨"main.conf"⟩).asked .diamond) ∧
    answerWithin .silent .ring 4 (.ofFolder ⟨"."⟩) = answer .ring (.ofFolder ⟨"."⟩) := by
  have failed : ((((Load.file ⟨"main.conf"⟩).run .ring).outcome .start).1.map fun _ => ()) =
      .error (.includeCycle "parts/../main.conf") := by
    decide +kernel
  have good : (((Load.file ⟨"main.conf"⟩).run .diamond).outcome .start).1.isOk = true := by
    decide +kernel
  have files : (texts World.ring.files).length = 3 := by decide +kernel
  obtain ⟨_, bounded, loads, _⟩ := including_ends_exactly .ring
  have ring := loads (.file ⟨"main.conf"⟩)
  have cause : (((Load.file ⟨"main.conf"⟩).run .ring).outcome .start).1 =
      .error (.includeCycle "parts/../main.conf") := by
    cases done : (((Load.file ⟨"main.conf"⟩).run .ring).outcome .start).1 with
    | ok config => rw [done] at failed; cases failed
    | error fault => rw [done] at failed; cases failed; rfl
  obtain ⟨walk, file, returns, same⟩ := (ring .start).reported _ cause
  obtain ⟨config, done⟩ := ok_of_isOk good
  have diamond := (including_ends_exactly .diamond).2.2.1 (.file ⟨"main.conf"⟩) .start
  refine ⟨⟨walk, file, returns, same⟩, fun session => ?_, ⟨config, done⟩, ?_, ?_⟩
  · exact (ring session).cyclic (cyclic_iff_returns.mpr ⟨walk, file, returns⟩)
  · exact fun cyclic => diamond.cyclic cyclic config done
  · have ends := bounded .silent (.ofFolder ⟨"."⟩) List.nodup_nil
    rwa [files] at ends

end Hocon.Include
