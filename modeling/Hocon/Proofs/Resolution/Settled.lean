import Hocon.Proofs.Faults
import Hocon.Proofs.Resolution.Outcome

namespace Hocon

namespace Value

mutual

/-- The values that a value is made of at any depth, itself first. -/
def parts : Value → List Value
  | .object fields => .object fields :: fieldParts fields
  | .array items => .array items :: itemParts items
  | .text content => [.text content]
  | .null => [.null]
  | .reference target => [.reference target]
  | .concat pieces => .concat pieces :: itemParts pieces

def fieldParts : List (String × Value) → List Value
  | [] => []
  | (_, value) :: rest => value.parts ++ fieldParts rest

def itemParts : List Value → List Value
  | [] => []
  | value :: rest => value.parts ++ itemParts rest

end

mutual

theorem parts_of_resolved (value : Value) (resolved : value.containsPending = false) :
    ∀ part ∈ value.parts, part.isPending = false := by
  cases value with
  | object fields => simpa [parts, isPending, kind] using fieldParts_of_resolved fields resolved
  | array items => simpa [parts, isPending, kind] using itemParts_of_resolved items resolved
  | text content => simp [parts, isPending, kind]
  | null => simp [parts, isPending, kind]
  | reference target => cases resolved
  | concat pieces => cases resolved

private theorem fieldParts_of_resolved (fields : List (String × Value))
    (resolved : fieldsContainPending fields = false) :
    ∀ part ∈ fieldParts fields, part.isPending = false := by
  match fields with
  | [] => simp [fieldParts]
  | (_, value) :: rest =>
    obtain ⟨first, others⟩ := Bool.or_eq_false_iff.mp resolved
    intro part member
    rcases List.mem_append.mp member with inside | behind
    · exact parts_of_resolved value first part inside
    · exact fieldParts_of_resolved rest others part behind

private theorem itemParts_of_resolved (items : List Value) (resolved : itemsContainPending items = false) :
    ∀ part ∈ itemParts items, part.isPending = false := by
  match items with
  | [] => simp [itemParts]
  | value :: rest =>
    obtain ⟨first, others⟩ := Bool.or_eq_false_iff.mp resolved
    intro part member
    rcases List.mem_append.mp member with inside | behind
    · exact parts_of_resolved value first part inside
    · exact itemParts_of_resolved rest others part behind

end

private theorem object_resolved {fields : Object} :
    (object fields).containsPending = false ↔ ∀ field ∈ fields, field.2.containsPending = false := by
  simp [containsPending, fieldsContainPending_eq]

private theorem array_resolved {items : List Value} :
    (array items).containsPending = false ↔ ∀ item ∈ items, item.containsPending = false := by
  simp [containsPending, itemsContainPending_eq]

private theorem resolved_of_lookup {value found : Value} {keys : List String}
    (resolved : value.containsPending = false) (known : value.lookup keys = some found) :
    found.containsPending = false := by
  induction keys generalizing value with
  | nil =>
    cases known
    exact resolved
  | cons key rest ih =>
    cases value with
    | object fields =>
      cases held : fields.lookup key with
      | none => simp [lookup, held] at known
      | some next =>
        obtain ⟨before, after, same, _⟩ := List.lookup_eq_some_iff.mp held
        have inside := object_resolved.mp resolved (key, next) (by simp [same])
        exact ih inside (by simpa [lookup, held] using known)
    | _ => cases known

end Value

namespace Object

private theorem forall_update {holds : Value → Prop} {fields : Object} {key : String}
    {change : Option Value → Value} (all : ∀ field ∈ fields, holds field.2)
    (changed : ∀ old, (∀ value ∈ old, holds value) → holds (change old)) :
    ∀ field ∈ update fields key change, holds field.2 := by
  induction fields with
  | nil => simpa [update] using changed none (by simp)
  | cons field rest ih =>
    obtain ⟨name, value⟩ := field
    obtain ⟨first, others⟩ := List.forall_mem_cons.mp all
    by_cases found : name = key
    · rw [update, if_pos found]
      exact List.forall_mem_cons.mpr ⟨changed (some value) (by simpa using first), others⟩
    · rw [update, if_neg found]
      exact List.forall_mem_cons.mpr ⟨first, ih others⟩

mutual

private theorem merge_resolved (base incoming : List (String × Value))
    (settled : ∀ field ∈ base, field.2.containsPending = false)
    (resolved : ∀ field ∈ incoming, field.2.containsPending = false) :
    ∀ field ∈ merge base incoming, field.2.containsPending = false := by
  match incoming with
  | [] => exact settled
  | (key, value) :: rest =>
    obtain ⟨first, others⟩ := List.forall_mem_cons.mp resolved
    have updated : ∀ field ∈ update base key (fun old => overlay old value),
        field.2.containsPending = false :=
      forall_update settled fun old known => overlay_resolved old value known first
    exact merge_resolved _ rest updated others

private theorem overlay_resolved (old : Option Value) (value : Value)
    (settled : ∀ value ∈ old, value.containsPending = false)
    (resolved : value.containsPending = false) : (overlay old value).containsPending = false := by
  match value with
  | .object incoming =>
    match old with
    | some (.object base) =>
      have inside := Value.object_resolved.mp (settled _ rfl)
      exact Value.object_resolved.mpr
        (merge_resolved base incoming inside (Value.object_resolved.mp resolved))
    | none | some (.array _) | some (.text _) | some .null | some (.reference _) | some (.concat _) =>
      exact resolved
  | .array _ | .text _ | .null | .reference _ | .concat _ => exact resolved

end

end Object

namespace Value

private theorem append_resolved {first second joined : Value} (settled : first.containsPending = false)
    (resolved : second.containsPending = false) (done : append first second = .ok joined) :
    joined.containsPending = false := by
  unfold append at done
  split at done
  · cases done
    rfl
  · cases done
    rw [array_resolved] at *
    exact fun item member => (List.mem_append.mp member).elim (settled item) (resolved item)
  · cases done
    rw [object_resolved] at *
    exact Object.merge_resolved _ _ settled resolved
  · cases done

private theorem foldlM_append_resolved {first joined : Value} {rest : List Value}
    (settled : first.containsPending = false) (resolved : ∀ piece ∈ rest, piece.containsPending = false)
    (done : rest.foldlM append first = .ok joined) : joined.containsPending = false := by
  induction rest generalizing first with
  | nil =>
    cases done
    exact settled
  | cons next rest ih =>
    obtain ⟨following, others⟩ := List.forall_mem_cons.mp resolved
    rw [List.foldlM_cons] at done
    obtain ⟨both, appended, done⟩ := ok_of_bind done
    exact ih (append_resolved settled following appended) others done

private theorem concatenate_resolved {pieces : List Value} {joined : Value}
    (resolved : ∀ piece ∈ pieces, piece.containsPending = false)
    (done : concatenate pieces = .ok joined) : joined.containsPending = false := by
  have counted : ∀ piece ∈ significant pieces, piece.containsPending = false := by
    intro piece member
    unfold significant at member
    split at member
    · exact resolved piece (List.mem_filter.mp member).1
    · exact resolved piece member
  unfold concatenate at done
  split at done
  · cases done
    rfl
  case h_2 first rest same =>
    obtain ⟨settled, others⟩ := List.forall_mem_cons.mp (same ▸ counted)
    exact foldlM_append_resolved settled others done

private theorem joinResolved_resolved {pieces : List (Option Value)} {joined : Option Value}
    (resolved : ∀ piece ∈ pieces, ∀ value ∈ piece, value.containsPending = false)
    (done : joinResolved pieces = .ok joined) : ∀ value ∈ joined, value.containsPending = false := by
  have defined : ∀ value ∈ pieces.filterMap id, value.containsPending = false := by
    intro value member
    obtain ⟨piece, held, rfl⟩ := List.mem_filterMap.mp member
    exact resolved _ held value rfl
  simp only [joinResolved] at done
  split at done
  · cases done
    simp
  · cases concatenated : concatenate (pieces.filterMap id) with
    | error fault =>
      rw [concatenated] at done
      cases done
    | ok whole =>
      rw [concatenated] at done
      cases done
      simpa using concatenate_resolved defined concatenated

end Value

/-- Records of nothing but resolved values. -/
def Memo.Settled (memo : Memo) : Prop :=
  ∀ record ∈ memo, ∀ value ∈ record.2, value.containsPending = false

private theorem Memo.Settled.lookup {memo : Memo} (settled : memo.Settled) {id : Nat} {result : Option Value}
    (known : memo.lookup id = some result) : ∀ value ∈ result, value.containsPending = false := by
  obtain ⟨before, after, same, _⟩ := List.lookup_eq_some_iff.mp known
  exact settled (id, result) (by simp [same])

namespace Resolution

/-- Started on settled records, a computation leaves settled ones, and what it gives is as it
should be. A fault that it ends in needs no file. -/
def Settles {α : Type} (run : Resolving α) (holds : α → Prop) : Prop :=
  ∀ memo : Memo, memo.Settled →
    run.Ends memo (fun result after => holds result ∧ after.Settled) Fault.Local

/-- A result that may be missing is resolved. -/
abbrev Clear (result : Option Value) : Prop := ∀ value ∈ result, value.containsPending = false

private theorem clear_none : Clear none := by
  rintro value ⟨⟩

private theorem clear_some {value : Value} (resolved : value.containsPending = false) : Clear (some value) := by
  rintro found ⟨⟩
  exact resolved

namespace Settles

variable {α β : Type} {holds : α → Prop}

private theorem pure {result : α} (is : holds result) : Settles (pure result) holds :=
  fun _ settled => .pure ⟨is, settled⟩

private theorem bind {run : Resolving α} {next : α → Resolving β} {after : β → Prop} (first : Settles run holds)
    (second : ∀ result, holds result → Settles (next result) after) : Settles (run >>= next) after := by
  intro memo settled
  refine .bind ((first memo settled).weaken ?_ fun _ own => own)
  rintro result later ⟨is, kept⟩
  exact second result is later kept

private theorem throw {fault : Fault} (own : fault.Local) : Settles (throw fault : Resolving α) holds :=
  fun _ _ => .throw own

private theorem note (note : Note) : Settles (Run.note note) fun _ => True :=
  fun _ settled => .note ⟨trivial, settled⟩

private theorem record {id : Nat} {result : Option Value} (clear : Clear result) :
    Settles (modify ((id, result) :: ·)) fun _ => True :=
  fun _ settled => .modify ⟨trivial, List.forall_mem_cons.mpr ⟨clear, settled⟩⟩

end Settles

private theorem joinResolved_settles {pieces : List (Option Value)} (clear : ∀ piece ∈ pieces, Clear piece) :
    Settles (Run.ofExcept (Value.joinResolved pieces)) Clear := by
  refine fun memo settled => .ofExcept ?_ ?_
  · intro joined done
    exact ⟨Value.joinResolved_resolved clear done, settled⟩
  · intro fault failed
    simp only [Value.joinResolved] at failed
    split at failed
    · cases failed
    · cases joined : Value.concatenate (pieces.filterMap id) with
      | ok whole =>
        rw [joined] at failed
        cases failed
      | error cause =>
        obtain ⟨left, right, rfl⟩ := Value.mismatch_of_concatenate joined
        rw [joined] at failed
        cases failed
        rfl

section Walk

variable {target : Reference → Resolving (Option Value)}

mutual

/-- The walk over a value clears it if the look-ups clear references. -/
private theorem value_settles (clears : ∀ reference, Settles (target reference) Clear) (value : Value) :
    Settles (Resolution.value target value) Clear := by
  cases value with
  | reference reference => exact clears reference
  | concat pieces => exact (items_settle clears pieces).bind fun _ clear => joinResolved_settles clear
  | object fields =>
    exact (object_settle clears fields).bind fun left resolved =>
      .pure (clear_some (Value.object_resolved.mpr resolved))
  | array elements =>
    refine (items_settle clears elements).bind fun left clear =>
      .pure (clear_some (Value.array_resolved.mpr fun item member => ?_))
    obtain ⟨element, held, rfl⟩ := List.mem_filterMap.mp member
    exact clear _ held item rfl
  | text content => exact .pure (clear_some rfl)
  | null => exact .pure (clear_some rfl)

private theorem object_settle (clears : ∀ reference, Settles (target reference) Clear)
    (fields : List (String × Value)) :
    Settles (object target fields) fun left => ∀ field ∈ left, field.2.containsPending = false := by
  match fields with
  | [] => exact .pure (by simp)
  | (key, field) :: rest =>
    refine (value_settles clears field).bind fun first clear =>
      (object_settle clears rest).bind fun others resolved => .pure ?_
    intro entry member
    rcases List.mem_append.mp member with own | behind
    · obtain ⟨value, held, rfl⟩ := List.mem_map.mp own
      exact clear value (by simpa using held)
    · exact resolved entry behind

private theorem items_settle (clears : ∀ reference, Settles (target reference) Clear) (items : List Value) :
    Settles (Resolution.items target items) fun left => ∀ item ∈ left, Clear item := by
  match items with
  | [] => exact .pure (by simp)
  | element :: rest =>
    exact (value_settles clears element).bind fun first clear =>
      (items_settle clears rest).bind fun others resolved =>
        .pure (List.forall_mem_cons.mpr ⟨clear, resolved⟩)

end

end Walk

variable {environment : Environment} {source : Value}

private theorem supply_settles (reference : Reference) {found : Option Value} (clear : Clear found) :
    Settles (supply environment reference found) Clear := by
  cases found with
  | some value => exact .pure clear
  | none =>
    simp only [supply, fallback]
    cases environment reference.dotted with
    | some content => exact (Settles.note _).bind fun _ _ => .pure (clear_some rfl)
    | none =>
      cases reference.optional with
      | true => exact .pure clear_none
      | false => exact .throw rfl

private theorem record_settles (reference : Reference) {found : Option Value} (clear : Clear found) :
    Settles (record environment reference found) Clear :=
  (supply_settles reference clear).bind fun _ resolved =>
    (Settles.note _).bind fun _ _ => (Settles.record resolved).bind fun _ _ => .pure resolved

private theorem follow_settles {available : List Nat}
    (clears : ∀ reference, Settles (target environment source available reference) Clear)
    (path : List String) : Settles (follow environment source available path) Clear := by
  unfold follow
  cases source.reach path with
  | none => exact .pure clear_none
  | some stop =>
    refine (value_settles clears stop.1).bind fun whole clear => .pure ?_
    intro value found
    obtain ⟨tree, same, known⟩ := Option.bind_eq_some_iff.mp found
    exact Value.resolved_of_lookup (clear tree same) known

/-- A search clears what it finds, whatever numbers are still available. -/
private theorem target_settles (available : List Nat) (reference : Reference) :
    Settles (target environment source available reference) Clear := by
  rw [target_eq]
  intro memo settled
  refine .bind (.get ?_)
  cases known : memo.lookup reference.id with
  | some result => exact .pure ⟨settled.lookup known, settled⟩
  | none =>
    by_cases member : reference.id ∈ available
    · have followed := follow_settles (target_settles (without available reference.id)) reference.path
      simp only [member, if_true]
      exact (followed.bind fun found clear => record_settles reference clear) memo settled
    · simp only [member, if_false]
      exact .throw rfl
termination_by available.length
decreasing_by exact length_without_lt member

private theorem whole_settles {holds : Option Value → Prop} (available : List Nat) (references : List Reference)
    (last : Settles (value (target environment source available) source) holds) :
    Settles (whole environment source available references) holds := by
  have listed : Settles (references.forM fun reference => discard
      (target environment source available reference)) fun _ => True := by
    induction references with
    | nil => exact .pure trivial
    | cons reference rest ih =>
      have first : Settles (discard (target environment source available reference)) fun _ => True := by
        rw [discard_eq]
        exact (target_settles available reference).bind fun _ _ => .pure trivial
      exact first.bind fun _ _ => ih
  exact listed.bind fun _ _ => last

end Resolution

namespace Root

/-- A document without anything pending is its own result; any other has what the walk over its
value leaves. -/
private theorem resolve_settles {holds : Option Value → Prop} (environment : Environment) (root : Root)
    (session : Session) (last : ∀ available, Resolution.Settles
      (Resolution.value (Resolution.target environment root.value available) root.value) holds) :
    match ((root.resolve environment).outcome session).1 with
    | .ok result => result = root.value ∧ root.value.containsPending = false ∨
        ∃ left, holds left ∧ result = left.getD (.object [])
    | .error fault => fault.Local := by
  cases pending : root.references.isEmpty && !root.value.containsPending with
  | true =>
    rw [resolve_of_resolved environment pending]
    exact .inl ⟨rfl, by simp_all⟩
  | false =>
    rw [resolve_of_pending environment pending]
    have run := Resolution.whole_settles (root.value.references.map (·.id))
      (root.references.filter fun reference =>
        (root.value.references.map (·.id)).contains reference.id)
      (last _) [] (by simp [Memo.Settled]) session
    simp only [Run.outcome, bind, EStateM.bind]
    cases ran : Resolution.whole environment root.value (root.value.references.map (·.id))
        (root.references.filter fun reference =>
          (root.value.references.map (·.id)).contains reference.id) [] session with
    | ok pair after =>
      rw [ran] at run
      exact .inr ⟨pair.1, run.1, rfl⟩
    | error fault after =>
      rw [ran] at run
      exact run

variable {environment : Environment} {root : Root} {session : Session} {result : Value}

/-- What resolving answers holds nothing that is pending, whatever is listed and numbered. -/
theorem resolved_of_resolve (done : ((root.resolve environment).outcome session).1 = .ok result) :
    result.containsPending = false := by
  have settles := resolve_settles environment root session fun available =>
    Resolution.value_settles (Resolution.target_settles available) root.value
  rw [done] at settles
  rcases settles with ⟨rfl, resolved⟩ | ⟨left, clear, rfl⟩
  · exact resolved
  · cases left with
    | none => rfl
    | some tree => exact clear tree rfl

theorem object_of_resolve (environment : Environment) {fields : Object} {references : List Reference}
    (done : (((Root.mk (.object fields) references).resolve environment).outcome session).1 = .ok result) :
    ∃ left, result = .object left := by
  have last : ∀ available, Resolution.Settles
      (Resolution.value (Resolution.target environment (.object fields) available) (.object fields))
      fun left => ∃ inside, left = some (.object inside) := fun available =>
    (Resolution.object_settle (Resolution.target_settles available) fields).bind
      fun left _ => .pure ⟨left, rfl⟩
  have settles := resolve_settles environment (Root.mk (.object fields) references) session last
  rw [done] at settles
  rcases settles with ⟨rfl, _⟩ | ⟨left, ⟨inside, rfl⟩, rfl⟩
  · exact ⟨fields, rfl⟩
  · exact ⟨inside, rfl⟩

theorem resolve_ne_includeCycle (environment : Environment) (root : Root) (session : Session)
    (path : String) : ((root.resolve environment).outcome session).1 ≠ .error (.includeCycle path) := by
  intro failed
  have settles := resolve_settles environment root session fun available =>
    Resolution.value_settles (Resolution.target_settles available) root.value
  rw [failed] at settles
  cases settles

end Root
end Hocon
