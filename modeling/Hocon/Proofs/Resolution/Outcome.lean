import Hocon.Proofs.Resolution.Simulation

/-! What resolving a document answers. It succeeds just when no reference waits for itself
and some meaning fits under which the value can be evaluated; the result is then the one
tree that agrees with itself. The list of references that were read plays no part in it. -/
namespace Hocon

/-- All references of a document, listed or in its value. -/
def Root.mentioned (root : Root) : List Reference := root.references ++ root.value.references

/-- A number stands for one reference. -/
def Root.Consistent (root : Root) : Prop :=
  ∀ first ∈ root.mentioned, ∀ second ∈ root.mentioned, first.id = second.id → first = second

instance (root : Root) : Decidable root.Consistent :=
  inferInstanceAs (Decidable (∀ first ∈ root.mentioned, ∀ second ∈ root.mentioned,
    first.id = second.id → first = second))

theorem Root.Consistent.identified {root : Root} (consistent : root.Consistent) :
    root.value.Identified :=
  fun first member second other => consistent first (List.mem_append_right _ member) second
    (List.mem_append_right _ other)

/-- Listed references that are live are those of the value. -/
theorem Root.Consistent.live {root : Root} (consistent : root.Consistent) :
    root.references.filter (fun reference => (root.value.references.map (·.id)).contains reference.id) ⊆
      root.value.references := by
  intro reference member
  obtain ⟨listed, contained⟩ := List.mem_filter.mp member
  obtain ⟨live, present, same⟩ := List.mem_map.mp (List.contains_iff_mem.mp contained)
  have equal := consistent reference (List.mem_append_left _ listed) live
    (List.mem_append_right _ present) same.symm
  exact equal ▸ present

/-- A result of a document: what its value is under a meaning that fits it. -/
def Value.Denotes (environment : Environment) (source result : Value) : Prop :=
  ∃ meaning : Meaning, meaning.Fits environment source ∧
    ∃ left, source.evaluate meaning = .ok left ∧ result = left.getD (.object [])

namespace Root

variable (environment : Environment) {root : Root} (session : Session)

/-- A run over a whole document, as it goes on when something may be pending. -/
theorem resolve_of_pending (pending : (root.references.isEmpty && !root.value.containsPending) = false) :
    root.resolve environment = (do
      let (resolved, _) ← Resolution.whole environment root.value (root.value.references.map (·.id))
        (root.references.filter fun reference =>
          (root.value.references.map (·.id)).contains reference.id) []
      return resolved.getD (.object [])) := by
  simp only [resolve, pending]
  rfl

theorem resolve_of_resolved (resolved : (root.references.isEmpty && !root.value.containsPending) = true) :
    root.resolve environment = pure root.value := by
  simp only [resolve, resolved, if_true]

/-- A run ends well only on a document that waits for nothing without end; the result is what
every meaning that fits gives, and there is such a meaning. A run that fails has met a cycle
or a document without such a meaning. -/
private theorem resolve_ends (consistent : root.Consistent) :
    match (root.resolve environment).outcome session with
    | (.ok result, _) => ¬ Cyclic root.value ∧
        (∃ meaning : Meaning, meaning.Fits environment root.value) ∧
          ∃ left, result = left.getD (.object []) ∧ ∀ meaning : Meaning,
            meaning.Fits environment root.value → root.value.evaluate meaning = .ok left
    | (.error fault, _) => (∀ path, fault = .referenceCycle path → Cyclic root.value) ∧
        (¬ Cyclic root.value → ∀ result, ¬ root.value.Denotes environment result) := by
  have identified := consistent.identified
  cases pending : root.references.isEmpty && !root.value.containsPending with
  | true =>
    rw [resolve_of_resolved environment pending]
    have resolved : root.value.containsPending = false := by simp_all
    have none := Value.references_of_resolved root.value resolved
    refine ⟨?_, ⟨fun _ => Option.none, ?_⟩, some root.value, rfl, ?_⟩
    · exact not_cyclic_of_rank (fun _ => 0) (by simp [none])
    · simp [Meaning.Fits, none]
    · exact fun meaning _ => Value.evaluate_of_resolved meaning root.value resolved
  | false =>
    rw [resolve_of_pending environment pending]
    have recorded : Recorded environment root.value [] := .empty
    have run := Resolution.follows_whole identified _ consistent.live [] recorded session
    simp only [Run.outcome, bind, EStateM.bind]
    cases ran : Resolution.whole environment root.value (root.value.references.map (·.id))
        (root.references.filter fun reference =>
          (root.value.references.map (·.id)).contains reference.id) [] session with
    | ok pair after =>
      rw [ran] at run
      obtain ⟨left, memo⟩ := pair
      have complete : ∀ reference ∈ root.value.references, (memo.lookup reference.id).isSome :=
        fun reference member => run.covered reference (List.mem_append_right _ member)
      refine ⟨?_, ⟨memo.meaning, run.recorded.fits identified complete⟩, left, rfl, ?_⟩
      · exact not_cyclic_of_acc fun reference live =>
          run.recorded.accessible identified live (complete reference live)
      · intro meaning fits
        exact run.outcome_eq identified (by simpa using consistent.live) (fun _ _ same =>
          Value.evaluate_reads root.value _ _ fun reference member =>
            same reference (List.mem_append_right _ member)) fits
    | error fault after =>
      rw [ran] at run
      refine ⟨run.cycle, ?_⟩
      rintro acyclic result ⟨meaning, fits, left, evaluated, _⟩
      exact run.failure (fun path same => acyclic (run.cycle path same)) meaning fits left evaluated

variable {environment session} in
/-- The outcome in terms of the value alone: the list of references does not occur here. -/
theorem resolve_ok_iff (consistent : root.Consistent) {result : Value} :
    ((root.resolve environment).outcome session).1 = .ok result ↔
      ¬ Cyclic root.value ∧ root.value.Denotes environment result := by
  have ends := resolve_ends environment session consistent
  rcases ran : (root.resolve environment).outcome session with ⟨outcome, after⟩
  rw [ran] at ends
  cases outcome with
  | ok actual =>
    obtain ⟨acyclic, ⟨meaning, fits⟩, left, rfl, evaluated⟩ := ends
    constructor
    · intro same
      cases same
      exact ⟨acyclic, meaning, fits, left, evaluated meaning fits, rfl⟩
    · rintro ⟨_, other, otherFits, otherLeft, otherEvaluated, rfl⟩
      have same := (evaluated other otherFits).symm.trans otherEvaluated
      rw [Except.ok.inj same]
  | error fault =>
    constructor
    · intro same
      cases same
    · rintro ⟨acyclic, denotes⟩
      exact absurd denotes (ends.2 acyclic result)

/-- A cyclic document is never resolved, and a cycle is reported only of a cyclic one. -/
theorem resolve_reports_cycles_exactly (environment : Environment) (root : Root) (session : Session)
    (consistent : root.Consistent) :
    (Cyclic root.value →
      ∀ result, ((root.resolve environment).outcome session).1 ≠ .ok result) ∧
    (∀ path, ((root.resolve environment).outcome session).1 = .error (.referenceCycle path) →
      Cyclic root.value) := by
  constructor
  · intro cyclic result success
    exact ((resolve_ok_iff consistent).mp success).1 cyclic
  · intro path reported
    have ends := resolve_ends environment session consistent
    rcases ran : (root.resolve environment).outcome session with ⟨outcome, after⟩
    rw [ran] at ends reported
    cases reported
    exact ends.1 path rfl

/-- Two fields that stand for each other, through an array and an object. -/
def entangled : Root :=
  let left : Reference := ⟨0, ["right", "inner"], false, ⟨1, 8⟩⟩
  let right : Reference := ⟨1, ["left"], false, ⟨2, 18⟩⟩
  ⟨.object [("left", .array [.reference left]), ("right", .object [("inner", .reference right)])],
    [left, right]⟩

private theorem entangled_cyclic : Cyclic entangled.value := by
  have there : Refers entangled.value ⟨0, ["right", "inner"], false, ⟨1, 8⟩⟩
      ⟨1, ["left"], false, ⟨2, 18⟩⟩ := refers_iff.mpr (by decide)
  have back : Refers entangled.value ⟨1, ["left"], false, ⟨2, 18⟩⟩
      ⟨0, ["right", "inner"], false, ⟨1, 8⟩⟩ := refers_iff.mpr (by decide)
  exact ⟨_, .tail (.single there) back⟩

theorem entangled_never_resolved :
    entangled.Consistent ∧ Cyclic entangled.value ∧
      ∀ result, ((entangled.resolve fun _ => none).outcome .start).1 ≠ .ok result :=
  ⟨by decide, entangled_cyclic,
    (resolve_reports_cycles_exactly _ entangled .start (by decide)).1 entangled_cyclic⟩

/-- Whatever is listed, a value resolves to the same tree or to none. -/
theorem resolve_ignores_listed_references (environment : Environment) (value : Value)
    (listed other : List Reference) (session otherSession : Session)
    (consistent : (Root.mk value listed).Consistent) (otherConsistent : (Root.mk value other).Consistent) :
    (((Root.mk value listed).resolve environment).outcome session).1.toOption =
      (((Root.mk value other).resolve environment).outcome otherSession).1.toOption := by
  have same : ∀ result,
      (((Root.mk value listed).resolve environment).outcome session).1 = .ok result ↔
        (((Root.mk value other).resolve environment).outcome otherSession).1 = .ok result :=
    fun result => (resolve_ok_iff consistent).trans (resolve_ok_iff otherConsistent).symm
  cases first : (((Root.mk value listed).resolve environment).outcome session).1 with
  | ok result => rw [(same result).mp first]
  | error fault =>
    cases second : (((Root.mk value other).resolve environment).outcome otherSession).1 with
    | error _ => rfl
    | ok result =>
      have impossible := (same result).mpr second
      rw [first] at impossible
      cases impossible

/-- References that lead through each other, to an object in place of a reference, to the
environment and to nothing. -/
def layered : Root :=
  let base : Reference := ⟨0, ["base"], false, ⟨2, 8⟩⟩
  let port : Reference := ⟨1, ["copy", "port"], false, ⟨3, 8⟩⟩
  let home : Reference := ⟨2, ["HOME"], false, ⟨4, 8⟩⟩
  let gone : Reference := ⟨3, ["nowhere"], true, ⟨5, 8⟩⟩
  let folder : Reference := ⟨4, ["home"], false, ⟨6, 7⟩⟩
  ⟨.object [("base", .object [("port", .text "80")]), ("copy", .reference base),
    ("port", .reference port), ("home", .reference home), ("gone", .reference gone),
    ("dir", .concat [.reference folder, .text "/x"])], [folder, port, base, home, gone]⟩

/-- The list may be empty, or name other references besides. -/
theorem layered_ignores_listed_references :
    (Root.mk layered.value []).Consistent ∧
      (Root.mk layered.value (⟨7, ["stale"], false, ⟨1, 1⟩⟩ :: layered.references)).Consistent ∧
      (((Root.mk layered.value []).resolve fun _ => none).outcome .start).1.toOption =
        (((Root.mk layered.value (⟨7, ["stale"], false, ⟨1, 1⟩⟩ :: layered.references)).resolve
          fun _ => none).outcome .start).1.toOption :=
  ⟨by decide, by decide,
    resolve_ignores_listed_references _ _ _ _ .start .start (by decide) (by decide)⟩

end Root

/-- What references stand for by a tree itself: what the tree has at their path, else what
the environment has under their name, else nothing. -/
def Meaning.ofTree (environment : Environment) (tree : Value) : Meaning := fun reference =>
  match tree.lookup reference.path with
  | some found => some found
  | none => (environment reference.dotted).map .text

/-- A tree that a document evaluates to by that tree itself, with no required reference left
to stand for nothing. -/
structure Value.Solves (environment : Environment) (source tree : Value) : Prop where
  evaluated : source.evaluate (.ofTree environment tree) = .ok (some tree)
  defined : ∀ reference ∈ source.references, reference.optional = false →
    (Meaning.ofTree environment tree reference).isSome

/-- Asking the environment succeeds for what is found or optional. -/
theorem Reference.settle_eq_ok_iff {environment : Environment} {reference : Reference}
    {found result : Option Value} :
    reference.settle environment found = .ok result ↔
      result = (match found with
        | some value => some value
        | none => (environment reference.dotted).map .text) ∧
      (reference.optional = false → result.isSome) := by
  have known : ∀ value : Value, (Except.ok (some value) : Except Fault _) = .ok result ↔
      result = some value ∧ (reference.optional = false → result.isSome) := by
    intro value
    constructor
    · rintro ⟨⟩
      exact ⟨rfl, fun _ => rfl⟩
    · rintro ⟨rfl, _⟩
      rfl
  cases found with
  | some value => exact known value
  | none =>
    simp only [settle]
    cases environment reference.dotted with
    | some content => exact known (.text content)
    | none =>
      cases optional : reference.optional with
      | true =>
        cases result <;> simp
      | false =>
        cases result <;> simp

/-- Trees that solve a document are what it is under the meanings that fit it. -/
theorem Value.solves_iff {environment : Environment} {source tree : Value}
    (distinct : source.keysDistinct = true) :
    source.Solves environment tree ↔
      ∃ meaning : Meaning, meaning.Fits environment source ∧ source.evaluate meaning = .ok (some tree) := by
  have settled : ∀ {meaning : Meaning}, source.evaluate meaning = .ok (some tree) → ∀ reference,
      (reference : Reference).denote environment source meaning =
        reference.settle environment (tree.lookup reference.path) := by
    intro meaning evaluated reference
    rw [Reference.denote, find_of_evaluate reference.path distinct evaluated]
    rfl
  constructor
  · rintro ⟨evaluated, defined⟩
    refine ⟨_, fun reference member => ?_, evaluated⟩
    rw [settled evaluated reference, Reference.settle_eq_ok_iff]
    exact ⟨rfl, defined reference member⟩
  · rintro ⟨meaning, fits, evaluated⟩
    have agrees : ∀ reference ∈ source.references,
        meaning reference = Meaning.ofTree environment tree reference ∧
          (reference.optional = false → (meaning reference).isSome) := by
      intro reference member
      exact Reference.settle_eq_ok_iff.mp
        ((settled evaluated reference).symm.trans (fits reference member))
    refine ⟨?_, fun reference member required => ?_⟩
    · rw [← evaluated]
      exact evaluate_reads source _ _ fun reference member => (agrees reference member).1.symm
    · rw [← (agrees reference member).1]
      exact (agrees reference member).2 required

/-- Resolving computes the solution: the result of a document that waits for nothing without
end is the one tree that the document evaluates to by that tree itself. -/
theorem Root.resolve_eq_ok_iff_solves (environment : Environment) (root : Root) (session : Session)
    (fields : Object) (whole : root.value = .object fields)
    (distinct : root.value.keysDistinct = true) (consistent : root.Consistent)
    (acyclic : ¬ Cyclic root.value) (result : Value) :
    ((root.resolve environment).outcome session).1 = .ok result ↔
      root.value.Solves environment result := by
  have present : ∀ {meaning : Meaning} {left : Option Value},
      root.value.evaluate meaning = .ok left → left.isSome := by
    intro meaning left evaluated
    rw [whole] at evaluated
    obtain ⟨inside, _, done⟩ := ok_of_bind evaluated
    cases done
    rfl
  rw [resolve_ok_iff consistent, Value.solves_iff distinct]
  constructor
  · rintro ⟨_, meaning, fits, left, evaluated, rfl⟩
    obtain ⟨tree, rfl⟩ := Option.isSome_iff_exists.mp (present evaluated)
    exact ⟨meaning, fits, evaluated⟩
  · rintro ⟨meaning, fits, evaluated⟩
    exact ⟨acyclic, meaning, fits, some result, evaluated, rfl⟩

/-- The tree that the layered document resolves to in a home. -/
def Root.layeredTree : Value :=
  .object [("base", .object [("port", .text "80")]), ("copy", .object [("port", .text "80")]),
    ("port", .text "80"), ("home", .text "/root"), ("dir", .text "/root/x")]

/-- An environment of one variable. -/
def Environment.ofHome : Environment := fun name => if name = "HOME" then some "/root" else none

theorem layered_solved :
    Root.layered.value.keysDistinct = true ∧ Root.layered.Consistent ∧ ¬ Cyclic Root.layered.value ∧
      Root.layered.value.Solves .ofHome Root.layeredTree ∧
      ((Root.layered.resolve .ofHome).outcome .start).1 = .ok Root.layeredTree := by
  have acyclic : ¬ Cyclic Root.layered.value := not_cyclic_of_rank Reference.id (by decide)
  have solves : Root.layered.value.Solves .ofHome Root.layeredTree := ⟨by rfl, by decide⟩
  exact ⟨by decide, by decide, acyclic, solves,
    (Root.resolve_eq_ok_iff_solves .ofHome Root.layered .start _ rfl (by decide) (by decide) acyclic
      Root.layeredTree).mpr solves⟩

private theorem Reference.settle_congr {first second : Environment} {reference : Reference}
    {found : Option Value}
    (agree : found = none → first reference.dotted = second reference.dotted) :
    reference.settle first found = reference.settle second found := by
  cases found with
  | some value => rfl
  | none => simp only [settle, agree rfl]

/-- A meaning that makes a tree of the document fits in every environment that says the same of
what is missing in that tree. -/
private theorem Meaning.Fits.elsewhere {meaning : Meaning} {first second : Environment} {source tree : Value}
    (fits : meaning.Fits first source) (distinct : source.keysDistinct = true)
    (evaluated : source.evaluate meaning = .ok (some tree))
    (agree : ∀ reference ∈ source.references, tree.lookup reference.path = none →
      first reference.dotted = second reference.dotted) : meaning.Fits second source := by
  intro reference live
  have found : source.find meaning reference.path = .ok (tree.lookup reference.path) :=
    Value.find_of_evaluate reference.path distinct evaluated
  have settled := fits reference live
  rw [Reference.denote, found] at settled ⊢
  exact (Reference.settle_congr (agree reference live)).symm.trans settled

theorem Value.some_of_evaluate_object {meaning : Meaning} {fields : Object} {left : Option Value}
    (evaluated : (object fields).evaluate meaning = .ok left) : ∃ tree, left = some tree := by
  obtain ⟨inside, _, done⟩ := ok_of_bind evaluated
  cases done
  exact ⟨_, rfl⟩

/-- The environment fills only holes: a document resolves to the same tree in any environment that
agrees on the names of the live references whose path is missing in that tree. -/
theorem Root.resolve_fills_only_holes (root : Root) (fields : Object)
    (whole : root.value = .object fields) (distinct : root.value.keysDistinct = true)
    (consistent : root.Consistent) (first second : Environment) (session other : Session)
    (result : Value) (resolved : ((root.resolve first).outcome session).1 = .ok result)
    (agree : ∀ reference ∈ root.value.references, result.lookup reference.path = none →
      first reference.dotted = second reference.dotted) :
    ((root.resolve second).outcome other).1 = .ok result := by
  obtain ⟨acyclic, meaning, fits, left, evaluated, same⟩ := (resolve_ok_iff consistent).mp resolved
  obtain ⟨tree, rfl⟩ := Value.some_of_evaluate_object (whole ▸ evaluated)
  obtain rfl : result = tree := same
  have refits : meaning.Fits second root.value := fits.elsewhere distinct evaluated agree
  exact (resolve_ok_iff consistent).mpr ⟨acyclic, meaning, refits, some result, evaluated, rfl⟩

/-- An environment with the same home, and a variable for every other name but one. -/
def Environment.crowded : Environment := fun name =>
  if name = "HOME" then some "/root" else if name = "nowhere" then none else some "outside"

/-- Variables named like paths of the layered document do not come through. -/
theorem Root.layered_in_crowd :
    layered.value.keysDistinct = true ∧ layered.Consistent ∧
      ((layered.resolve .ofHome).outcome .start).1 = .ok layeredTree ∧
      (∀ reference ∈ layered.value.references, layeredTree.lookup reference.path = none →
        Environment.ofHome reference.dotted = Environment.crowded reference.dotted) ∧
      ((layered.resolve .crowded).outcome .start).1 = .ok layeredTree := by
  have acyclic : ¬ Cyclic layered.value := not_cyclic_of_rank Reference.id (by decide)
  have solves : layered.value.Solves .ofHome layeredTree := ⟨by rfl, by decide⟩
  have distinct : layered.value.keysDistinct = true := by decide
  have consistent : layered.Consistent := by decide
  obtain ⟨meaning, fits, evaluated⟩ := (Value.solves_iff distinct).mp solves
  have resolved : ((layered.resolve .ofHome).outcome .start).1 = .ok layeredTree :=
    (resolve_ok_iff consistent).mpr ⟨acyclic, meaning, fits, some layeredTree, evaluated, rfl⟩
  have agree : ∀ reference ∈ layered.value.references, layeredTree.lookup reference.path = none →
      Environment.ofHome reference.dotted = Environment.crowded reference.dotted := by decide
  exact ⟨distinct, consistent, resolved, agree,
    resolve_fills_only_holes layered _ rfl distinct consistent .ofHome .crowded .start .start _
      resolved agree⟩

end Hocon
