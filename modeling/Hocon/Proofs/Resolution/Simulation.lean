import Hocon.Proofs.Concat
import Hocon.Proofs.Resolution.Recording

/-! What resolving computes. The walk that looks references up and records them follows
evaluation step by step: where it ends well it has evaluated under its own records, and
where it fails there is a cycle, or no meaning fits under which evaluation succeeds. -/
namespace Hocon

/-- Started on some records, a computation that ends well gives a result and records that
are `good`, and one that fails gives a fault that is `bad`, whatever the session. -/
def Resolving.Ends {α : Type} (run : Resolving α) (memo : Memo) (good : α → Memo → Prop)
    (bad : Fault → Prop) : Prop :=
  ∀ session, match run memo session with
    | .ok (result, after) _ => good result after
    | .error fault _ => bad fault

namespace Resolving.Ends

variable {α β : Type} {memo : Memo} {good better : α → Memo → Prop} {bad worse : Fault → Prop}

theorem pure {result : α} (holds : good result memo) : Ends (pure result) memo good bad :=
  fun _ => holds

theorem throw {fault : Fault} (holds : bad fault) : Ends (throw fault) memo good bad :=
  fun _ => holds

theorem get {good : Memo → Memo → Prop} (holds : good memo memo) : Ends get memo good bad :=
  fun _ => holds

theorem modify {good : Unit → Memo → Prop} {change : Memo → Memo} (holds : good () (change memo)) :
    Ends (modify change) memo good bad :=
  fun _ => holds

theorem note {good : Unit → Memo → Prop} {note : Note} (holds : good () memo) :
    Ends (Run.note note) memo good bad :=
  fun _ => holds

theorem ofExcept {outcome : Except Fault α} (ok : ∀ result, outcome = .ok result → good result memo)
    (error : ∀ fault, outcome = .error fault → bad fault) :
    Ends (Run.ofExcept outcome) memo good bad := by
  intro session
  cases outcome with
  | ok result => exact ok result rfl
  | error fault => exact error fault rfl

theorem bind {run : Resolving α} {next : α → Resolving β} {good : β → Memo → Prop}
    (first : Ends run memo (fun result after => Ends (next result) after good bad) bad) :
    Ends (run >>= next) memo good bad := by
  intro session
  have step := first session
  change match (run memo >>= fun pair => next pair.1 pair.2) session with
    | .ok (result, after) _ => good result after
    | .error fault _ => bad fault
  cases ran : run memo session with
  | ok pair later =>
    rw [ran] at step
    simpa only [Bind.bind, EStateM.bind, ran] using step later
  | error fault later =>
    rw [ran] at step
    simpa only [Bind.bind, EStateM.bind, ran] using step

theorem weaken {run : Resolving α} (ends : Ends run memo better worse)
    (ok : ∀ result after, better result after → good result after)
    (error : ∀ fault, worse fault → bad fault) : Ends run memo good bad := by
  intro session
  have step := ends session
  cases ran : run memo session with
  | ok pair later => rw [ran] at step; exact ok _ _ step
  | error fault later => rw [ran] at step; exact error _ step

end Resolving.Ends

namespace Resolution

/-- A computation ended well: it has recorded, within the numbers allowed, all references
that its outcome depends on, and its result is the outcome under the records. -/
structure Progress {α : Type} (environment : Environment) (source : Value) (available : List Nat)
    (references : List Reference) (outcome : Meaning → Except Fault α) (memo : Memo) (result : α)
    (after : Memo) : Prop where
  recorded : Recorded environment source after
  growth : memo.Growth after available
  covered : ∀ reference ∈ references, (after.lookup reference.id).isSome
  computed : outcome after.meaning = .ok result

/-- A computation failed: a reported cycle is one, and any other fault leaves no meaning
that fits the document and under which the outcome is a success. -/
structure Blame {α : Type} (environment : Environment) (source : Value)
    (outcome : Meaning → Except Fault α) (fault : Fault) : Prop where
  cycle : ∀ path, fault = .referenceCycle path → Cyclic source
  failure : (∀ path, fault ≠ .referenceCycle path) → ∀ meaning : Meaning,
    meaning.Fits environment source → ∀ result, outcome meaning ≠ .ok result

/-- A computation with records follows an outcome that depends on a meaning. -/
def Follows {α : Type} (environment : Environment) (source : Value) (available : List Nat)
    (references : List Reference) (outcome : Meaning → Except Fault α) (run : Resolving α) : Prop :=
  ∀ memo, Recorded environment source memo →
    run.Ends memo (Progress environment source available references outcome memo)
      (Blame environment source outcome)

variable {environment : Environment} {source : Value} {available : List Nat}

private theorem Follows.pure {α : Type} (result : α) :
    Follows environment source available [] (fun _ => .ok result) (pure result) :=
  fun memo recorded => .pure ⟨recorded, .refl memo available, by simp, rfl⟩

/-- What depends on recorded references alone is the same under the records as under any
meaning that fits. -/
theorem Progress.outcome_eq {α : Type} {references : List Reference}
    {outcome : Meaning → Except Fault α} {memo after : Memo} {result : α}
    (progress : Progress environment source available references outcome memo result after)
    (identified : source.Identified) (live : references ⊆ source.references)
    (reads : Value.Reads references outcome) {meaning : Meaning}
    (fits : meaning.Fits environment source) : outcome meaning = .ok result := by
  rw [← progress.computed]
  exact reads _ _ fun reference member =>
    progress.recorded.agrees identified fits (live member) (progress.covered reference member)

/-- Sequences follow sequences: later steps only add to the records of earlier ones. -/
private theorem Follows.bind {α β : Type} {references further : List Reference}
    {outcome : Meaning → Except Fault α} {following : α → Meaning → Except Fault β}
    {run : Resolving α} {next : α → Resolving β}
    (identified : source.Identified) (live : references ⊆ source.references)
    (reads : Value.Reads references outcome)
    (first : Follows environment source available references outcome run)
    (second : ∀ result, Follows environment source available further (following result) (next result)) :
    Follows environment source available (references ++ further)
      (fun meaning => outcome meaning >>= (following · meaning)) (run >>= next) := by
  intro memo recorded
  refine .bind ((first memo recorded).weaken ?_ ?_)
  · intro result middle progress
    refine (second result middle progress.recorded).weaken ?_ ?_
    · intro final after later
      have unchanged : outcome after.meaning = .ok result := by
        rw [← progress.computed]
        exact reads _ _ fun reference member =>
          later.growth.meaning (progress.covered reference member)
      refine ⟨later.recorded, progress.growth.trans later.growth, ?_, ?_⟩
      · intro reference member
        rcases List.mem_append.mp member with earlier | new
        · exact later.growth.isSome (progress.covered reference earlier)
        · exact later.covered reference new
      · rw [unchanged]
        exact later.computed
    · intro fault blame
      refine ⟨blame.cycle, fun other meaning fits final => ?_⟩
      rw [progress.outcome_eq identified live reads fits]
      exact blame.failure other meaning fits final
  · intro fault blame
    refine ⟨blame.cycle, fun other meaning fits final done => ?_⟩
    obtain ⟨result, success, _⟩ := ok_of_bind done
    exact blame.failure other meaning fits result success

private theorem Follows.ofExcept {α : Type} {outcome : Except Fault α}
    (plain : ∀ path, outcome ≠ .error (.referenceCycle path)) :
    Follows environment source available [] (fun _ => outcome) (Run.ofExcept outcome) := by
  intro memo recorded
  refine .ofExcept ?_ ?_
  · intro result success
    exact ⟨recorded, .refl memo available, by simp, success⟩
  · rintro fault rfl
    refine ⟨fun path same => absurd (congrArg Except.error same) (plain path), ?_⟩
    intro _ meaning _ result success
    cases success

private theorem Follows.finish {α β : Type} {references : List Reference}
    {outcome : Meaning → Except Fault α} {final : α → Except Fault β} {run : Resolving α}
    {last : α → Resolving β} (identified : source.Identified)
    (live : references ⊆ source.references) (reads : Value.Reads references outcome)
    (first : Follows environment source available references outcome run)
    (second : ∀ result, Follows environment source available [] (fun _ => final result) (last result)) :
    Follows environment source available references (fun meaning => outcome meaning >>= final)
      (run >>= last) := by
  have walked := first.bind identified live reads second
  rwa [List.append_nil] at walked

private theorem joinResolved_plain (pieces : List (Option Value)) (path : String) :
    Value.joinResolved pieces ≠ .error (.referenceCycle path) := by
  intro failed
  simp only [Value.joinResolved] at failed
  split at failed
  · cases failed
  · cases joined : Value.concatenate (pieces.filterMap id) with
    | ok whole =>
      rw [joined] at failed
      cases failed
    | error fault =>
      obtain ⟨left, right, rfl⟩ := Value.mismatch_of_concatenate joined
      rw [joined] at failed
      cases failed

/-- What a computation that stands for a reference follows. -/
abbrev Searches (environment : Environment) (source : Value) (available : List Nat)
    (reference : Reference) (run : Resolving (Option Value)) : Prop :=
  Follows environment source available [reference] (fun meaning => .ok (meaning reference)) run

section Walk

variable {target : Reference → Resolving (Option Value)}

mutual

/-- The walk over a value follows its evaluation if the look-ups do. -/
private theorem follows_value (identified : source.Identified) (value : Value)
    (live : value.references ⊆ source.references)
    (searches : ∀ reference ∈ value.references,
      Searches environment source available reference (target reference)) :
    Follows environment source available value.references (Value.evaluate · value)
      (Resolution.value target value) := by
  cases value with
  | reference reference => exact searches reference (List.mem_singleton_self reference)
  | concat pieces =>
    exact (follows_items identified pieces live searches).finish identified live
      (Value.evaluateItems_reads pieces)
      (fun resolved => Follows.ofExcept (joinResolved_plain resolved))
  | object fields =>
    exact (follows_object identified fields live searches).finish identified live
      (Value.evaluateFields_reads fields) (fun left => .pure (some (Value.object left)))
  | array elements =>
    exact (follows_items identified elements live searches).finish identified live
      (Value.evaluateItems_reads elements) (fun left => .pure (some (Value.array (left.filterMap id))))
  | text content => exact .pure (some (Value.text content))
  | null => exact .pure (some Value.null)

private theorem follows_object (identified : source.Identified) (fields : List (String × Value))
    (live : Value.fieldReferences fields ⊆ source.references)
    (searches : ∀ reference ∈ Value.fieldReferences fields,
      Searches environment source available reference (target reference)) :
    Follows environment source available (Value.fieldReferences fields) (Value.evaluateFields · fields)
      (Resolution.object target fields) := by
  match fields with
  | [] => exact .pure []
  | (key, field) :: rest =>
    simp only [Value.fieldReferences, List.append_subset, List.mem_append] at live searches
    refine .bind identified live.1 (Value.evaluate_reads field)
      (follows_value identified field live.1 fun reference member => searches reference (.inl member))
      fun first => ?_
    exact (follows_object identified rest live.2
      fun reference member => searches reference (.inr member)).finish identified live.2
      (Value.evaluateFields_reads rest) (fun others => .pure (first.toList.map (key, ·) ++ others))

private theorem follows_items (identified : source.Identified) (items : List Value)
    (live : Value.itemReferences items ⊆ source.references)
    (searches : ∀ reference ∈ Value.itemReferences items,
      Searches environment source available reference (target reference)) :
    Follows environment source available (Value.itemReferences items) (Value.evaluateItems · items)
      (Resolution.items target items) := by
  match items with
  | [] => exact .pure []
  | element :: rest =>
    simp only [Value.itemReferences, List.append_subset, List.mem_append] at live searches
    refine .bind identified live.1 (Value.evaluate_reads element)
      (follows_value identified element live.1 fun reference member => searches reference (.inl member))
      fun first => ?_
    exact (follows_items identified rest live.2
      fun reference member => searches reference (.inr member)).finish identified live.2
      (Value.evaluateItems_reads rest) (fun others => .pure (first :: others))

end

end Walk

/-- What a path leads to in the document. -/
def follow (environment : Environment) (source : Value) (available : List Nat)
    (path : List String) : Resolving (Option Value) :=
  match source.reach path with
  | some (node, rest) => do
    let whole ← value (target environment source available) node
    return whole.bind (·.lookup rest)
  | none => return none

/-- What a reference stands for when its path has led to something, or has not. -/
def supply (environment : Environment) (reference : Reference) :
    Option Value → Resolving (Option Value)
  | some found => return some found
  | none => fallback environment reference

/-- Find out what a reference stands for, and record it. -/
def record (environment : Environment) (reference : Reference) (found : Option Value) :
    Resolving (Option Value) := do
  let result ← supply environment reference found
  Run.note (.resolved reference.dotted result.isSome)
  modify ((reference.id, result) :: ·)
  return result

/-- Outside the document nothing is recorded. -/
theorem supply_ends (reference : Reference) (found : Option Value) (memo : Memo) :
    (supply environment reference found).Ends memo
      (fun result after => after = memo ∧ reference.settle environment found = .ok result)
      (fun fault => reference.settle environment found = .error fault ∧
        ∀ path, fault ≠ .referenceCycle path) := by
  cases found with
  | some value => exact .pure ⟨rfl, rfl⟩
  | none =>
    simp only [supply, fallback, Reference.settle]
    cases environment reference.dotted with
    | some content => exact .bind (.note (.pure ⟨rfl, rfl⟩))
    | none =>
      cases reference.optional with
      | true => exact .pure ⟨rfl, rfl⟩
      | false => exact .throw ⟨rfl, by simp⟩

/-- A search in three parts: what is recorded, what the path leads to, and the new record. -/
theorem target_eq (available : List Nat) (reference : Reference) :
    target environment source available reference = (do
      match (← get).lookup reference.id with
      | some known => return known
      | none =>
        if reference.id ∈ available then
          follow environment source (without available reference.id) reference.path >>=
            record environment reference
        else throw (.referenceCycle reference.dotted)) := by
  rw [target]
  congr 1
  funext memo
  cases memo.lookup reference.id with
  | some known => rfl
  | none =>
    by_cases member : reference.id ∈ available
    · simp only [member, dif_pos, if_pos, follow]
      cases source.reach reference.path with
      | none => rfl
      | some stop =>
        simp only [bind_assoc, pure_bind, record]
        congr 1
        funext whole
        cases whole.bind (·.lookup stop.2) <;> rfl
    · simp only [member, dif_neg, if_neg, not_false_eq_true]

private theorem follows_find (identified : source.Identified) (reference : Reference)
    (searches : ∀ other ∈ reference.dependencies source,
      Searches environment source available other (target environment source available other))
    (live : reference.dependencies source ⊆ source.references) :
    Follows environment source available (reference.dependencies source)
      (source.find · reference.path) (follow environment source available reference.path) := by
  unfold Reference.dependencies at searches live ⊢
  unfold Value.find follow
  cases reached : source.reach reference.path with
  | none => exact .pure none
  | some stop =>
    obtain ⟨node, rest⟩ := stop
    rw [reached] at searches live
    exact (follows_value identified node live searches).finish identified live
      (Value.evaluate_reads node) (fun whole => .pure (whole.bind (·.lookup rest)))

/-- The references whose search is under way lead to each reference that is searched for. -/
def Pursued (source : Value) (available : List Nat) (reference : Reference) : Prop :=
  ∀ other ∈ source.references, other.id ∉ available →
    Relation.TransGen (Refers source) other reference

/-- Searching for one reference puts it before all that it waits for. -/
private theorem Pursued.step {reference other : Reference} (identified : source.Identified)
    (pursued : Pursued source available reference) (refers : Refers source reference other) :
    Pursued source (without available reference.id) other := by
  intro earlier live outside
  by_cases same : earlier.id = reference.id
  · obtain rfl := identified earlier live reference refers.1 same
    exact .single refers
  · have absent : earlier.id ∉ available := by
      intro member
      exact outside (List.mem_filter.mpr ⟨member, by simpa using same⟩)
    exact .tail (pursued earlier live absent) refers

/-- Recording what a reference stands for, once its path has been followed. -/
private theorem record_ends {reference : Reference} {memo middle : Memo} {found : Option Value}
    (live : reference ∈ source.references) (dependsLive : reference.dependencies source ⊆ source.references)
    (identified : source.Identified) (member : reference.id ∈ available)
    (absent : memo.lookup reference.id = none)
    (progress : Progress environment source (without available reference.id)
      (reference.dependencies source) (source.find · reference.path) memo found middle) :
    (record environment reference found).Ends middle
      (Progress environment source available [reference] (fun meaning => .ok (meaning reference)) memo)
      (Blame environment source fun meaning => .ok (meaning reference)) := by
  have fresh : middle.lookup reference.id = none :=
    progress.growth.confined _ absent (by simp [without])
  have settles : ∀ meaning : Meaning, source.find meaning reference.path = .ok found →
      reference.denote environment source meaning = reference.settle environment found := by
    intro meaning followed
    rw [Reference.denote, followed]
    rfl
  refine .bind ((supply_ends reference found middle).weaken ?_ ?_)
  · rintro result _ ⟨rfl, settled⟩
    have denoted := (settles _ progress.computed).trans settled
    have growth := Memo.Growth.insert result fresh member
    refine .bind (.note (.bind (.modify (.pure ⟨?_, ?_, ?_, ?_⟩))))
    · exact .insert progress.recorded live fresh progress.covered denoted
    · exact (progress.growth.weaken List.filter_sublist.subset).trans growth
    · simp
    · rw [Memo.meaning_of_lookup List.lookup_cons_self]
  · rintro fault ⟨failed, other⟩
    refine ⟨fun path same => absurd same (other path), fun _ meaning fits _ _ => ?_⟩
    have followed := progress.outcome_eq identified dependsLive (reference.find_reads source) fits
    have denoted := (fits reference live).symm.trans ((settles meaning followed).trans failed)
    cases denoted

/-- Searching for a reference records what it stands for, or blames the document. -/
private theorem follows_target (identified : source.Identified) (available : List Nat) (reference : Reference)
    (live : reference ∈ source.references) (pursued : Pursued source available reference) :
    Searches environment source available reference (target environment source available reference) := by
  intro memo recorded
  rw [target_eq]
  refine .bind (.get ?_)
  cases known : memo.lookup reference.id with
  | some result =>
    exact .pure ⟨recorded, .refl memo available, by simpa using Option.isSome_of_eq_some known,
      by rw [Memo.meaning_of_lookup known]⟩
  | none =>
    by_cases member : reference.id ∈ available
    · have dependsLive : reference.dependencies source ⊆ source.references :=
        fun other depends => (refers_iff.mpr ⟨live, depends⟩).live
      have searched := follows_find identified reference
        (fun other depends => follows_target identified (without available reference.id) other
          (dependsLive depends) (pursued.step identified (refers_iff.mpr ⟨live, depends⟩))) dependsLive
      simp only [member, if_true]
      refine .bind ((searched memo recorded).weaken ?_ ?_)
      · intro found middle progress
        exact record_ends live dependsLive identified member known progress
      · intro fault blame
        refine ⟨blame.cycle, fun other meaning fits _ _ => ?_⟩
        obtain ⟨found, followed, _⟩ := ok_of_bind (fits reference live)
        exact blame.failure other meaning fits found followed
    · simp only [member, if_false]
      refine .throw ⟨fun _ _ => ⟨reference, pursued reference live member⟩, fun other => ?_⟩
      exact absurd rfl (other reference.dotted)
termination_by available.length
decreasing_by exact length_without_lt member

/-- While no search is under way, none can be pursued in vain. -/
private theorem pursued_start (reference : Reference) :
    Pursued source (source.references.map (·.id)) reference := by
  intro other live outside
  exact absurd (List.mem_map_of_mem live) outside

theorem discard_eq {α : Type} (run : Resolving α) : discard run = run >>= fun _ => pure () := by
  rw [bind_pure_comp, discard, map_const]
  rfl

private theorem follows_references (identified : source.Identified) (references : List Reference)
    (live : references ⊆ source.references) :
    Follows environment source (source.references.map (·.id)) references (fun _ => .ok ())
      (references.forM fun reference => discard
        (target environment source (source.references.map (·.id)) reference)) := by
  induction references with
  | nil => exact .pure ()
  | cons reference rest ih =>
    obtain ⟨first, others⟩ := List.cons_subset.mp live
    have searched : Searches environment source _ reference (target environment source _ reference) :=
      follows_target identified _ reference first (pursued_start reference)
    have discarded := searched.finish identified (by simpa using first)
      (fun _ _ same => by simp [same reference]) (fun _ => Follows.pure ())
    rw [← discard_eq] at discarded
    have walked := discarded.bind identified (by simpa using first)
      (fun _ _ same => by rfl) (fun _ => ih others)
    exact walked

/-- Resolving all of a document follows its evaluation. -/
theorem follows_whole (identified : source.Identified) (references : List Reference)
    (live : references ⊆ source.references) :
    Follows environment source (source.references.map (·.id)) (references ++ source.references)
      (Value.evaluate · source)
      (whole environment source (source.references.map (·.id)) references) := by
  have searches : ∀ reference ∈ source.references,
      Searches environment source _ reference (target environment source _ reference) :=
    fun reference member => follows_target identified _ reference member (pursued_start reference)
  have walk := follows_value identified source (List.Subset.refl _) searches
  exact (follows_references identified references live).bind identified live (fun _ _ _ => rfl)
    fun _ => walk

end Resolution
end Hocon
