import Hocon.Proofs.Grammar.Distinct
import Hocon.Proofs.Include.Steps
import Hocon.Proofs.Loading
import Hocon.Proofs.Merging.Union

/-! Grouping of merges. Objects merged into a target one after the other do the same to it as what
they make by themselves, unless one of them puts something else where the target has an object and a
later one has an object again. Files that a directive means are merged by themselves first. -/
namespace Hocon

namespace Object

open Value (Unobstructed)

variable {base target : Object} {files : List Object}

private theorem isObject_overlay (old : Option Value) (value : Value) :
    (overlay old value).isObject = value.isObject := by
  unfold overlay
  split
  · split <;> rfl
  · rfl

private theorem lookup_foldl_merge (distinct : ∀ file ∈ files, (Value.object file).keysDistinct = true)
    {path : List String}
    {value : Value} (plain : value.isObject = false)
    (found : (Value.object (files.foldl merge base)).lookup path = some value) :
    (Value.object base).lookup path = some value ∨ ∃ file ∈ files, (Value.object file).lookup path = some value := by
  induction files using List.reverseRecOn with
  | nil => exact .inl found
  | append_singleton front last ih =>
    obtain ⟨others, own⟩ := List.forall_mem_append.mp distinct
    have own := own last List.mem_cons_self
    rw [List.foldl_append] at found
    have found : (overlay (some (.object (front.foldl merge base))) (.object last)).lookup path = some value := found
    cases comes : (Value.object last).lookup path with
    | some there =>
      rw [lookup_overlay_of_some _ own comes, Option.some.injEq] at found
      have plain : there.isObject = false := by rw [← isObject_overlay, found, plain]
      rw [overlay_of_not_object plain] at found
      exact .inr ⟨last, by simp, comes.trans (congrArg some found)⟩
    | none =>
      have kept := lookup_overlay_of_none (some (.object (front.foldl merge base))) own comes
      by_cases bars : (Value.object last).Bars path
      · cases (kept.1 bars).symm.trans found
      · have before := (kept.2 bars).symm.trans found
        exact (ih others before).imp_right fun ⟨file, member, there⟩ => ⟨file, by simp [member], there⟩

private theorem keysDistinct_mergeAll (distinct : ∀ file ∈ files, (Value.object file).keysDistinct = true) :
    (Value.object (mergeAll files)).keysDistinct = true := by
  induction files using List.reverseRecOn with
  | nil => rfl
  | append_singleton front last ih =>
    obtain ⟨others, own⟩ := List.forall_mem_append.mp distinct
    have own := (Bool.and_eq_true_iff.mp (own last List.mem_cons_self)).2
    rw [mergeAll, List.foldl_append]
    exact Value.keysDistinct_merge _ last (ih others) own

/-- None of these objects puts something else where the target has an object and a later one of them
has one again. -/
def Harmonious (target : Object) (files : List Object) : Prop :=
  files.Pairwise fun earlier later => Unobstructed (.object target) (.object earlier) (.object later)

private theorem unobstructed_mergeAll {later : Object}
    (distinct : ∀ file ∈ files, (Value.object file).keysDistinct = true)
    (free : ∀ file ∈ files, Unobstructed (.object target) (.object file) (.object later)) :
    Unobstructed (.object target) (.object (mergeAll files)) (.object later) := by
  intro path between low high found
  by_contra plain
  have plain : between.isObject = false := by simpa using plain
  rcases lookup_foldl_merge distinct plain found with empty | ⟨file, member, there⟩
  · cases path <;> cases empty
    cases plain
  · have object := free file member path between low high there
    cases plain.symm.trans object

/-- Objects merged one after the other come to the same as what they make by themselves. -/
private theorem merge_mergeAll (distinct : ∀ file ∈ files, (Value.object file).keysDistinct = true)
    (harmonious : Harmonious target files) : merge target (mergeAll files) = files.foldl merge target := by
  induction files using List.reverseRecOn with
  | nil => simp [mergeAll, merge]
  | append_singleton front last ih =>
    obtain ⟨others, own⟩ := List.forall_mem_append.mp distinct
    have own := own last List.mem_cons_self
    obtain ⟨before, _, between⟩ := List.pairwise_append.mp harmonious
    have free : Unobstructed (.object target) (.object (mergeAll front)) (.object last) :=
      unobstructed_mergeAll others fun file member => between file member last List.mem_cons_self
    calc merge target (mergeAll (front ++ [last]))
        = merge target (merge (mergeAll front) last) := by rw [mergeAll, List.foldl_append]; rfl
      _ = merge (merge target (mergeAll front)) last :=
        (merge_merge target (mergeAll front) last (keysDistinct_mergeAll others) own free).symm
      _ = (front ++ [last]).foldl merge target := by rw [ih others before, List.foldl_append]; rfl

end Object

namespace Include

open Files (FilePath)
open Object (mergeAll Harmonious)

variable {world : World} {site : Site}

/-- A text whose directives are answered by objects of distinct keys is read as one. -/
theorem keysDistinct_of_parse {includer : Includer} {text : String} {session after : Session} {document : Document}
    (objects : includer.Objects) (answered : includer.Distinct)
    (parsed : parse includer text session = .ok document after) :
    (Value.object document.fields).keysDistinct = true := by
  obtain ⟨tree, outlined⟩ := parse_outline text
  rw [outlined includer objects] at parsed
  obtain ⟨made, middle, ran, done⟩ := Run.ok_of_bind parsed
  cases done
  exact Entry.keysDistinct_build (Grammar.Fields.distinct_of_run answered ran)

/-- Reading the file at a site makes these fields. -/
def Loads (world : World) (site : Site) (file : FilePath) (fields : Object) : Prop :=
  ∃ document before after, load world site file before = .ok document after ∧ document.fields = fields

private theorem loads_of_gathered {files : List FilePath} {merged result : Document} {session after : Session}
    (ran : files.foldlM (gather (load world site)) merged session = .ok result after) :
    ∃ objects, List.Forall₂ (Loads world site) files objects ∧
      result.fields = objects.foldl Object.merge merged.fields := by
  induction files generalizing merged session with
  | nil =>
    cases ran
    exact ⟨[], .nil, rfl⟩
  | cons file files ih =>
    rw [List.foldlM_cons] at ran
    obtain ⟨further, middle, first, ran⟩ := Run.ok_of_bind ran
    obtain ⟨_, before, _, first⟩ := Run.ok_of_bind first
    obtain ⟨document, behind, loaded, made⟩ := Run.ok_of_bind first
    cases made
    obtain ⟨objects, others, same⟩ := ih ran
    exact ⟨document.fields :: objects, .cons ⟨document, before, middle, loaded, rfl⟩ others, same⟩

/-- What a file makes is distinct in its keys if what is answered inside of it is. -/
theorem keysDistinct_of_loads
    (answered : ∀ file text, world.files.identity file ∉ site.chain → world.files.read file = .ok text →
      Includer.Distinct (answer world (site.inside world.files file)))
    {file : FilePath} {fields : Object} (loads : Loads world site file fields) :
    (Value.object fields).keysDistinct = true := by
  obtain ⟨document, before, after, loaded, rfl⟩ := loads
  rw [load_eq] at loaded
  obtain ⟨fresh, text, read, parsed⟩ := parsed_of_load loaded
  exact keysDistinct_of_parse (answer_objects world _) (answered file text fresh read) parsed

/-- An answer is what the files of its pattern make by themselves. -/
private theorem loads_of_answer {directive : Directive} {session after : Session} {root : Root}
    (done : answer world site directive session = .ok root after) :
    ∃ paths files, site.expand world directive.pattern = .ok paths ∧
      List.Forall₂ (Loads world site) paths files ∧ root.value = .object (mergeAll files) := by
  rw [answer_eq] at done
  obtain ⟨paths, merged, before, expanded, gathered, _, rfl⟩ := gathered_of_answer done
  obtain ⟨files, loaded, same⟩ := loads_of_gathered gathered
  exact ⟨paths, files, expanded, loaded, congrArg Value.object same⟩

private theorem forall_of_loads {paths : List FilePath} {files : List Object} {holds : Object → Prop}
    (loaded : List.Forall₂ (Loads world site) paths files)
    (each : ∀ {path fields}, Loads world site path fields → holds fields) : ∀ fields ∈ files, holds fields := by
  induction loaded with
  | nil => simp
  | cons first _ ih => exact List.forall_mem_cons.mpr ⟨each first, ih⟩

/-- What is answered from files is distinct in its keys. -/
theorem answer_distinct (world : World) (site : Site) : Includer.Distinct (answer world site) := by
  induction site using Site.induct world.files with
  | step site inside =>
  intro directive session after root ran
  obtain ⟨_, files, _, loaded, same⟩ := loads_of_answer ran
  rw [same]
  exact Object.keysDistinct_mergeAll (forall_of_loads loaded (keysDistinct_of_loads inside))

end Include

open Include (World Site Loads)
open Object (mergeAll Harmonious)
open Value (Unobstructed)

/-- How merges are grouped makes no difference, unless something else is put between two objects. So
the files of a directive, merged into what is there one after the other, come to the same as what
they make by themselves. -/
theorem merges_regroup :
    (∀ base built incoming : Object, (Value.object built).keysDistinct = true →
      (Value.object incoming).keysDistinct = true →
      Unobstructed (.object base) (.object built) (.object incoming) →
      (base.merge built).merge incoming = base.merge (built.merge incoming)) ∧
    (∀ (target : Object) (files : List Object), (∀ file ∈ files, (Value.object file).keysDistinct = true) →
      Harmonious target files → target.merge (mergeAll files) = files.foldl Object.merge target) ∧
    ∀ (world : World) (site : Site) (directive : Directive) (session after : Session) (root : Root),
      Include.answer world site directive session = .ok root after →
      ∃ paths files, site.expand world directive.pattern = .ok paths ∧
        List.Forall₂ (Loads world site) paths files ∧ root.value = .object (mergeAll files) ∧
        ∀ target, Harmonious target files →
          (Entry.included (mergeAll files)).apply target = files.foldl Object.merge target := by
  refine ⟨fun base built incoming => Object.merge_merge base built incoming,
    fun target files => Object.merge_mergeAll, fun world site directive session after root done => ?_⟩
  obtain ⟨paths, files, expanded, loaded, same⟩ := Include.loads_of_answer done
  refine ⟨paths, files, expanded, loaded, same, fun target harmonious => ?_⟩
  have distinct := Include.forall_of_loads loaded
    (Include.keysDistinct_of_loads fun file _ _ _ => Include.answer_distinct world _)
  exact Object.merge_mergeAll distinct harmonious

/-- Objects that set parts of one object, and two files of one pattern. -/
theorem merges_regroup_shared :
    let base : Object := [("a", .object [("x", .text "1")])]
    let built : Object := [("b", .null), ("a", .object [("y", .text "2")])]
    let incoming : Object := [("a", .object [("x", .text "3")]), ("c", .null)]
    ((Value.object built).keysDistinct = true ∧ (Value.object incoming).keysDistinct = true ∧
      Unobstructed (.object base) (.object built) (.object incoming)) ∧
    (base.merge built).merge incoming = base.merge (built.merge incoming) ∧
    ∃ root after, Include.answer .diamond (.ofFolder ⟨""⟩) ⟨"[lr]*.conf", false⟩ .start = .ok root after ∧
      ∃ paths files, (Site.ofFolder ⟨""⟩).expand .diamond "[lr]*.conf" = .ok paths ∧
        List.Forall₂ (Loads .diamond (.ofFolder ⟨""⟩)) paths files ∧ root.value = .object (mergeAll files) := by
  intro base built incoming
  have free : Unobstructed (.object base) (.object built) (.object incoming) := by
    intro path between low high found
    obtain ⟨_, low⟩ := low
    cases path with
    | nil =>
      cases found
      rfl
    | cons key path =>
    -- the base has objects at its top and under "a" alone
    obtain rfl : key = "a" := by
      by_contra other
      have apart : (key == "a") = false := by simpa using other
      simp [base, Value.lookup, List.lookup_cons, apart] at low
    cases path with
    | nil =>
      cases found
      rfl
    | cons next path =>
      by_cases inside : next = "x"
      · subst inside
        cases path <;> cases low
      · have apart : (next == "x") = false := by simpa using inside
        simp [base, Value.lookup, List.lookup_cons, apart] at low
  have own : (Value.object built).keysDistinct = true := by decide
  have distinct : (Value.object incoming).keysDistinct = true := by decide
  have good : ((Include.answer .diamond (.ofFolder ⟨""⟩) ⟨"[lr]*.conf", false⟩).outcome .start).1.isOk = true := by
    decide +kernel
  obtain ⟨root, done⟩ := ok_of_isOk good
  obtain ⟨after, ran⟩ := Run.ok_of_outcome done
  obtain ⟨paths, files, expanded, loaded, same, _⟩ := merges_regroup.2.2 _ _ _ _ _ _ ran
  exact ⟨⟨own, distinct, free⟩, merges_regroup.1 base built incoming own distinct free, root, after, ran, paths,
    files, expanded, loaded, same⟩

end Hocon
