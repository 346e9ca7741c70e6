import Hocon.Proofs.Resolution.Outcome

namespace Hocon

namespace Resolution

/-- A computation has only added records, within the numbers allowed, has recorded the
references, and its result is the outcome under the records. -/
structure Finding {α : Type} (available : List Nat) (references : List Reference)
    (outcome : Meaning → Except Fault α) (memo : Memo) (result : α) (after : Memo) : Prop where
  growth : memo.Growth after available
  covered : ∀ reference ∈ references, (after.lookup reference.id).isSome
  computed : outcome after.meaning = .ok result

/-- A computation, when it ends well, finds the outcome whatever it starts on. -/
def Finds {α : Type} (available : List Nat) (references : List Reference)
    (outcome : Meaning → Except Fault α) (run : Resolving α) : Prop :=
  ∀ memo, run.Ends memo (Finding available references outcome memo) fun _ => True

variable {available : List Nat}

namespace Finds

variable {α β : Type} {references further : List Reference} {outcome : Meaning → Except Fault α}

private theorem pure (result : α) : Finds available [] (fun _ => .ok result) (pure result) :=
  fun memo => .pure ⟨.refl memo available, by simp, rfl⟩

private theorem ofExcept (outcome : Except Fault α) :
    Finds available [] (fun _ => outcome) (Run.ofExcept outcome) :=
  fun memo => .ofExcept (fun _ success => ⟨.refl memo available, by simp, success⟩)
    fun _ _ => trivial

private theorem bind {following : α → Meaning → Except Fault β} {run : Resolving α} {next : α → Resolving β}
    (reads : Value.Reads references outcome) (first : Finds available references outcome run)
    (second : ∀ result, Finds available further (following result) (next result)) :
    Finds available (references ++ further)
      (fun meaning => outcome meaning >>= (following · meaning)) (run >>= next) := by
  intro memo
  refine .bind ((first memo).weaken ?_ fun _ _ => trivial)
  intro result middle found
  refine (second result middle).weaken ?_ fun _ _ => trivial
  intro final after later
  have unchanged : outcome after.meaning = .ok result := by
    rw [← found.computed]
    exact reads _ _ fun reference member => later.growth.meaning (found.covered reference member)
  refine ⟨found.growth.trans later.growth, ?_, ?_⟩
  · intro reference member
    rcases List.mem_append.mp member with earlier | new
    · exact later.growth.isSome (found.covered reference earlier)
    · exact later.covered reference new
  · rw [unchanged]
    exact later.computed

private theorem finish {final : α → Except Fault β} {run : Resolving α} {last : α → Resolving β}
    (reads : Value.Reads references outcome) (first : Finds available references outcome run)
    (second : ∀ result, Finds available [] (fun _ => final result) (last result)) :
    Finds available references (fun meaning => outcome meaning >>= final) (run >>= last) := by
  have found := first.bind reads second
  rwa [List.append_nil] at found

end Finds

/-- A computation that stands for a reference finds what it stands for. -/
abbrev FindsReference (available : List Nat) (reference : Reference)
    (run : Resolving (Option Value)) : Prop :=
  Finds available [reference] (fun meaning => .ok (meaning reference)) run

section Walk

variable {target : Reference → Resolving (Option Value)}

mutual

/-- The walk over a value finds its evaluation if the look-ups find theirs. -/
private theorem value_finds (finds : ∀ reference, FindsReference available reference (target reference))
    (value : Value) :
    Finds available value.references (Value.evaluate · value) (Resolution.value target value) := by
  cases value with
  | reference reference => exact finds reference
  | concat pieces =>
    exact (items_find finds pieces).finish (Value.evaluateItems_reads pieces)
      fun resolved => .ofExcept (Value.joinResolved resolved)
  | object fields =>
    exact (object_finds finds fields).finish (Value.evaluateFields_reads fields)
      fun left => .pure (some (Value.object left))
  | array elements =>
    exact (items_find finds elements).finish (Value.evaluateItems_reads elements)
      fun left => .pure (some (Value.array (left.filterMap id)))
  | text content => exact .pure (some (Value.text content))
  | null => exact .pure (some Value.null)

private theorem object_finds (finds : ∀ reference, FindsReference available reference (target reference))
    (fields : List (String × Value)) :
    Finds available (Value.fieldReferences fields) (Value.evaluateFields · fields)
      (object target fields) := by
  match fields with
  | [] => exact .pure []
  | (key, field) :: rest =>
    refine (value_finds finds field).bind (Value.evaluate_reads field) fun first => ?_
    exact (object_finds finds rest).finish (Value.evaluateFields_reads rest)
      fun others => .pure (first.toList.map (key, ·) ++ others)

private theorem items_find (finds : ∀ reference, FindsReference available reference (target reference))
    (items : List Value) :
    Finds available (Value.itemReferences items) (Value.evaluateItems · items)
      (Resolution.items target items) := by
  match items with
  | [] => exact .pure []
  | element :: rest =>
    refine (value_finds finds element).bind (Value.evaluate_reads element) fun first => ?_
    exact (items_find finds rest).finish (Value.evaluateItems_reads rest)
      fun others => .pure (first :: others)

end

end Walk

variable {environment : Environment} {source : Value}

private theorem follow_grows (finds : ∀ reference,
    FindsReference available reference (target environment source available reference))
    (path : List String) (memo : Memo) :
    (follow environment source available path).Ends memo
      (fun _ after => memo.Growth after available) fun _ => True := by
  unfold follow
  cases source.reach path with
  | none => exact .pure (.refl memo available)
  | some stop =>
    refine .bind ((value_finds finds stop.1 memo).weaken ?_ fun _ _ => trivial)
    intro whole after found
    exact .pure found.growth

/-- Whatever its search comes to is what a reference is recorded to stand for. -/
private theorem target_finds (available : List Nat) (reference : Reference) :
    FindsReference available reference (target environment source available reference) := by
  intro memo
  rw [target_eq]
  refine .bind (.get ?_)
  cases known : memo.lookup reference.id with
  | some result =>
    exact .pure ⟨.refl memo available, by simpa using Option.isSome_of_eq_some known,
      by rw [Memo.meaning_of_lookup known]⟩
  | none =>
    by_cases member : reference.id ∈ available
    · have followed := follow_grows (target_finds (without available reference.id)) reference.path memo
      simp only [member, if_true]
      refine .bind (followed.weaken ?_ fun _ _ => trivial)
      intro found middle growth
      -- The search below could not use the number, so it is recorded here first.
      have fresh : middle.lookup reference.id = none := growth.confined _ known (by simp [without])
      refine .bind ((supply_ends reference found middle).weaken ?_ fun _ _ => trivial)
      rintro result _ ⟨rfl, _⟩
      refine .bind (.note (.bind (.modify (.pure ⟨?_, by simp, ?_⟩))))
      · exact (growth.weaken List.filter_sublist.subset).trans (.insert result fresh member)
      · rw [Memo.meaning_of_lookup List.lookup_cons_self]
    · simp only [member, if_false]
      exact .throw trivial
termination_by available.length
decreasing_by exact length_without_lt member

private theorem whole_ends (available : List Nat) (references : List Reference) (memo : Memo) :
    (whole environment source available references).Ends memo
      (fun result after => source.evaluate after.meaning = .ok result) fun _ => True := by
  have last : ∀ middle, (value (target environment source available) source).Ends middle
      (fun result after => source.evaluate after.meaning = .ok result) fun _ => True := fun middle =>
    (value_finds (target_finds available) source middle).weaken
      (fun _ _ found => found.computed) fun _ _ => trivial
  refine .bind fun session => ?_
  split
  · exact last _
  · trivial

end Resolution

namespace Root

/-- What a run found the references of a document to stand for; nothing, if it failed. -/
def found (environment : Environment) (root : Root) (session : Session) : Meaning :=
  match Resolution.whole environment root.value (root.value.references.map (·.id))
      (root.references.filter fun reference =>
        (root.value.references.map (·.id)).contains reference.id) [] session with
  | .ok (_, memo) _ => memo.meaning
  | .error _ _ => fun _ => none

variable {environment : Environment} {root : Root} {session : Session} {result : Value}

/-- The result is what the document is under what was found, whatever numbers are repeated. -/
private theorem evaluate_found (resolved : ((root.resolve environment).outcome session).1 = .ok result) :
    ∃ left, root.value.evaluate (root.found environment session) = .ok left ∧
      result = left.getD (.object []) := by
  cases pending : root.references.isEmpty && !root.value.containsPending with
  | true =>
    rw [resolve_of_resolved environment pending] at resolved
    cases resolved
    exact ⟨_, Value.evaluate_of_resolved _ root.value (by simp_all), rfl⟩
  | false =>
    rw [resolve_of_pending environment pending] at resolved
    obtain ⟨after, resolved⟩ := Run.ok_of_outcome resolved
    obtain ⟨⟨left, memo⟩, middle, ran, done⟩ := Run.ok_of_bind resolved
    cases done
    have ends := @Resolution.whole_ends environment root.value
      (root.value.references.map (·.id)) (root.references.filter fun reference =>
        (root.value.references.map (·.id)).contains reference.id) [] session
    rw [ran] at ends
    refine ⟨left, ?_, rfl⟩
    simpa only [found, ran] using ends

/-- Where numbers tell references apart, what was found fits the document. -/
private theorem found_fits (consistent : root.Consistent)
    (resolved : ((root.resolve environment).outcome session).1 = .ok result) :
    (root.found environment session).Fits environment root.value := by
  cases pending : root.references.isEmpty && !root.value.containsPending with
  | true =>
    have none := Value.references_of_resolved root.value (by simp_all)
    simp [Meaning.Fits, none]
  | false =>
    rw [resolve_of_pending environment pending] at resolved
    obtain ⟨after, resolved⟩ := Run.ok_of_outcome resolved
    obtain ⟨⟨left, memo⟩, middle, ran, _⟩ := Run.ok_of_bind resolved
    have recorded : Recorded environment root.value [] := .empty
    have run := Resolution.follows_whole consistent.identified _ consistent.live [] recorded session
    rw [ran] at run
    have complete : ∀ reference ∈ root.value.references, (memo.lookup reference.id).isSome :=
      fun reference member => run.covered reference (List.mem_append_right _ member)
    simpa only [found, ran] using run.recorded.fits consistent.identified complete

/-- What was found is what the resulting tree says, else the environment. -/
private theorem found_eq_ofTree {fields : Object} (whole : root.value = .object fields)
    (distinct : root.value.keysDistinct = true) (consistent : root.Consistent)
    (resolved : ((root.resolve environment).outcome session).1 = .ok result) {reference : Reference}
    (live : reference ∈ root.value.references) :
    root.found environment session reference = Meaning.ofTree environment result reference := by
  obtain ⟨left, evaluated, same⟩ := evaluate_found resolved
  obtain ⟨tree, rfl⟩ := Value.some_of_evaluate_object (whole ▸ evaluated)
  obtain rfl : result = tree := same
  have settled := found_fits consistent resolved reference live
  rw [Reference.denote, Value.find_of_evaluate reference.path distinct evaluated] at settled
  exact (Reference.settle_eq_ok_iff.mp settled).1

end Root

namespace Value

variable {parts : List (Option Value)} {left : Option Value}

private theorem all_isBlank_filterMap :
    (parts.filterMap id).all isBlank = true ↔ ∀ part ∈ parts, ∀ value ∈ part, value.isBlank = true := by
  simp only [List.all_eq_true, List.mem_filterMap, id]
  constructor
  · rintro all part member value rfl
    exact all value ⟨_, member, rfl⟩
  · rintro all value ⟨_, member, rfl⟩
    exact all _ member value rfl

/-- Pieces are lost just when what is defined of them is blank text, and one is missing or there is
none at all. -/
private theorem lost_iff :
    ((parts.filterMap id).isEmpty || (parts.any Option.isNone && (parts.filterMap id).all isBlank)) = true ↔
      (∀ part ∈ parts, ∀ value ∈ part, value.isBlank = true) ∧ (none ∈ parts ∨ parts = []) := by
  have missing : parts.any Option.isNone = true ↔ none ∈ parts := by simp
  have undefined : (parts.filterMap id).isEmpty = true ↔ ∀ part ∈ parts, part = none := by simp
  rw [Bool.or_eq_true, Bool.and_eq_true, missing, all_isBlank_filterMap, undefined]
  constructor
  · rintro (empty | ⟨gone, blank⟩)
    · refine ⟨fun part member value held => ?_, ?_⟩
      · rw [empty part member] at held
        cases held
      · cases parts with
        | nil => exact .inr rfl
        | cons part rest => exact .inl (by simp [empty part])
    · exact ⟨blank, .inl gone⟩
  · rintro ⟨blank, gone | rfl⟩
    · exact .inr ⟨gone, blank⟩
    · exact .inl (by simp)

private theorem joinResolved_eq_none_iff (done : joinResolved parts = .ok left) :
    left = none ↔
      (∀ part ∈ parts, ∀ value ∈ part, value.isBlank = true) ∧ (none ∈ parts ∨ parts = []) := by
  rw [← lost_iff]
  simp only [joinResolved] at done
  split at done
  next lost =>
    cases done
    exact iff_of_true rfl lost
  next kept =>
    cases joined : concatenate (parts.filterMap id) with
    | ok whole =>
      rw [joined] at done
      cases done
      exact iff_of_false (Option.some_ne_none whole) kept
    | error fault =>
      rw [joined] at done
      cases done

private theorem reach_of_lookup {source value : Value} {keys : List String}
    (held : source.lookup keys = some value) : source.reach keys = some (value, []) := by
  induction keys generalizing source with
  | nil =>
    cases held
    rfl
  | cons key rest ih =>
    cases source with
    | object fields =>
      cases known : fields.lookup key with
      | none => simp [lookup, known] at held
      | some next =>
        simp only [lookup, reach, known] at held ⊢
        exact ih held
    | _ => cases held

/-- What an evaluated document has at a path through its objects is what evaluating left there. -/
theorem evaluate_of_lookup {meaning : Meaning} {source value : Value} {tree : Option Value}
    {keys : List String} (distinct : source.keysDistinct = true)
    (evaluated : source.evaluate meaning = .ok tree) (held : source.lookup keys = some value) :
    value.evaluate meaning = .ok (tree.bind (·.lookup keys)) := by
  have found := find_of_evaluate keys distinct evaluated
  rw [find, reach_of_lookup held] at found
  obtain ⟨whole, first, same⟩ := ok_of_bind found
  rw [first, ← Except.ok.inj same]
  simp [lookup]

end Value

namespace Root

/-- Exactly which concatenations are left out with their fields: those of which blank text alone
is defined, a defined but empty reference included, while a piece is missing. -/
theorem concat_left_out_iff (environment : Environment) (root : Root) (session : Session)
    (result : Value) (keys : List String) (pieces : List Value)
    (resolved : ((root.resolve environment).outcome session).1 = .ok result)
    (distinct : root.value.keysDistinct = true) (inside : keys ≠ [])
    (held : root.value.lookup keys = some (.concat pieces)) :
    ∃ parts, Value.evaluateItems (root.found environment session) pieces = .ok parts ∧
      (result.lookup keys = none ↔
        (∀ part ∈ parts, ∀ value ∈ part, value.isBlank = true) ∧ (none ∈ parts ∨ parts = [])) := by
  obtain ⟨left, evaluated, same⟩ := evaluate_found resolved
  have tree : left.bind (·.lookup keys) = result.lookup keys := by
    cases left with
    | some tree => rw [same]; rfl
    | none =>
      obtain ⟨key, rest, rfl⟩ := List.exists_cons_of_ne_nil inside
      rw [same]
      rfl
  have joined := Value.evaluate_of_lookup distinct evaluated held
  rw [tree] at joined
  obtain ⟨parts, made, done⟩ := ok_of_bind joined
  exact ⟨parts, made, Value.joinResolved_eq_none_iff done⟩

/-- An empty text beside what is missing, alone and with more text. -/
def faded : Root :=
  let empty : Reference := ⟨0, ["x"], false, ⟨2, 5⟩⟩
  let gone : Reference := ⟨1, ["nope"], true, ⟨2, 9⟩⟩
  let again : Reference := ⟨2, ["x"], false, ⟨3, 5⟩⟩
  let lost : Reference := ⟨3, ["nope"], true, ⟨3, 10⟩⟩
  ⟨.object [("x", .text ""), ("y", .concat [.reference empty, .reference gone]),
    ("z", .concat [.reference again, .text "-", .reference lost])], [empty, gone, again, lost]⟩

/-- What is left of it: the field with more text. -/
def fadedTree : Value := .object [("x", .text ""), ("z", .text "-")]

private theorem faded_resolved : ((faded.resolve fun _ => none).outcome .start).1 = .ok fadedTree := by
  have solves : faded.value.Solves (fun _ => none) fadedTree := ⟨by rfl, by decide⟩
  obtain ⟨meaning, fits, evaluated⟩ := (Value.solves_iff (by decide)).mp solves
  have acyclic : ¬ Cyclic faded.value := not_cyclic_of_rank Reference.id (by decide)
  exact (resolve_ok_iff (by decide)).mpr ⟨acyclic, meaning, fits, some fadedTree, evaluated, rfl⟩

theorem faded_left_out :
    ∃ lost kept, faded.value.keysDistinct = true ∧
      ((faded.resolve fun _ => none).outcome .start).1 = .ok fadedTree ∧
      faded.value.lookup ["y"] = some (.concat lost) ∧ fadedTree.lookup ["y"] = none ∧
      (∃ parts, Value.evaluateItems (faded.found (fun _ => none) .start) lost = .ok parts ∧
        (∀ part ∈ parts, ∀ value ∈ part, value.isBlank = true) ∧ (none ∈ parts ∨ parts = [])) ∧
      faded.value.lookup ["z"] = some (.concat kept) ∧ fadedTree.lookup ["z"] = some (.text "-") ∧
      ∃ parts, Value.evaluateItems (faded.found (fun _ => none) .start) kept = .ok parts ∧
        ¬ ((∀ part ∈ parts, ∀ value ∈ part, value.isBlank = true) ∧ (none ∈ parts ∨ parts = [])) := by
  have distinct : faded.value.keysDistinct = true := by decide
  obtain ⟨lost, lostMade, gone⟩ := concat_left_out_iff _ faded .start _ ["y"] _ faded_resolved distinct
    (by decide) rfl
  obtain ⟨kept, keptMade, stays⟩ := concat_left_out_iff _ faded .start _ ["z"] _ faded_resolved distinct
    (by decide) rfl
  refine ⟨_, _, distinct, faded_resolved, rfl, rfl, ⟨lost, lostMade, gone.mp rfl⟩, rfl, rfl, kept,
    keptMade, fun blank => ?_⟩
  have absent : fadedTree.lookup ["z"] = none := stays.mpr blank
  cases absent

/-- A field can go although one of its references stands for something: an empty text. -/
theorem defined_piece_not_always_kept :
    ¬ ∀ (environment : Environment) (root : Root) (session : Session) (result : Value)
        (keys : List String) (pieces : List Value) (reference : Reference),
      ((root.resolve environment).outcome session).1 = .ok result → root.value.keysDistinct = true →
        root.Consistent → keys ≠ [] → root.value.lookup keys = some (.concat pieces) →
        .reference reference ∈ pieces → (root.found environment session reference).isSome →
        (result.lookup keys).isSome := by
  intro always
  have found : faded.found (fun _ => none) .start ⟨0, ["x"], false, ⟨2, 5⟩⟩ = some (.text "") :=
    found_eq_ofTree rfl (by decide) (by decide) faded_resolved (by decide)
  have kept := always _ faded .start _ ["y"] _ ⟨0, ["x"], false, ⟨2, 5⟩⟩ faded_resolved (by decide)
    (by decide) (by decide) rfl (.head _) (by rw [found]; rfl)
  cases kept

end Root
end Hocon
