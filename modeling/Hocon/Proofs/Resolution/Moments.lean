import Hocon.Proofs.Resolution.Simulation
import Mathlib.Logic.Function.Iterate

/-! Resolving moment by moment. What is under way is a stack of frames, each of which waits for the
result above it; among them are the searches for what references stand for, whose numbers are being
visited. Stepping from frame to frame comes to what resolving comes to. -/
namespace Hocon.Resolution

/-- Values that are resolved one after the other, and what is made of them. -/
inductive Row where
  | concat
  | array
deriving DecidableEq, Inhabited, Repr

def Row.close : Row → List (Option Value) → Except Fault (Option Value)
  | .concat, resolved => Value.joinResolved resolved
  | .array, resolved => .ok (some (.array (resolved.filterMap id)))

/-- What waits for a result. -/
inductive Frame where
  /-- The listed references that are still to be searched. -/
  | listed (rest : List Reference)
  /-- A search for what a reference stands for. -/
  | search (reference : Reference)
  /-- A look-up that stopped at something pending, with the keys that are left. -/
  | inside (keys : List String)
  | items (row : Row) (resolved : List (Option Value)) (rest : List Value)
  | field (resolved : Object) (key : String) (rest : Object)
deriving Inhabited, Repr

/-- What is done at a moment: something is resolved, or was, or a fault is on its way out. -/
inductive Focus where
  | value (value : Value)
  | reference (reference : Reference)
  | result (result : Option Value)
  | fault (fault : Fault)
deriving Inhabited, Repr

structure State where
  focus : Focus
  /-- The latest first. -/
  frames : List Frame
  memo : Memo
  /-- The numbers that may not be met again before their search has come to a result. -/
  visiting : List Nat
  session : Session
deriving Inhabited, Repr

namespace State

/-- A result or a fault is handed to the frame above. -/
def answer (state : State) : Except Fault (Option Value) → State
  | .ok result => { state with focus := .result result }
  | .error fault => { state with focus := .fault fault }

/-- Resolve the next value of a row. -/
def items (state : State) (row : Row) (resolved : List (Option Value)) : List Value → State
  | [] => state.answer (row.close resolved)
  | value :: rest =>
    { state with focus := .value value, frames := .items row resolved rest :: state.frames }

/-- Resolve the next field of an object. -/
def fields (state : State) (resolved : Object) : Object → State
  | [] => state.answer (.ok (some (.object resolved)))
  | (key, value) :: rest =>
    { state with focus := .value value, frames := .field resolved key rest :: state.frames }

/-- Search the next reference of a list, and in the end resolve the document. -/
def list (source : Value) (state : State) : List Reference → State
  | [] => { state with focus := .value source }
  | reference :: rest =>
    { state with focus := .reference reference, frames := .listed rest :: state.frames }

/-- Resolve a value. -/
def enter (state : State) : Value → State
  | .reference reference => { state with focus := .reference reference }
  | .concat pieces => state.items .concat [] pieces
  | .object fields => state.fields [] fields
  | .array elements => state.items .array [] elements
  | .text content => state.answer (.ok (some (.text content)))
  | .null => state.answer (.ok (some .null))

/-- Look for what a reference stands for, unless that is known or being looked for already. -/
def search (source : Value) (state : State) (reference : Reference) : State :=
  match state.memo.lookup reference.id with
  | some known => state.answer (.ok known)
  | none =>
    if reference.id ∈ state.visiting then state.answer (.error (.referenceCycle reference.dotted))
    else
      let opened := { state with visiting := reference.id :: state.visiting }
      match source.reach reference.path with
      | some (node, keys) =>
        { opened with focus := .value node, frames := .inside keys :: .search reference :: state.frames }
      | none => { opened with focus := .result none, frames := .search reference :: state.frames }

def note (state : State) (note : Note) : State :=
  { state with session := { state.session with notes := note :: state.session.notes } }

/-- The search for a reference has come to a result. -/
def close (state : State) (reference : Reference) (result : Option Value) : State :=
  { state.note (.resolved reference.dotted result.isSome) with
    focus := .result result
    memo := (reference.id, result) :: state.memo
    visiting := state.visiting.filter (· != reference.id) }

/-- What was found in the document, else the environment, makes the result of a search. -/
def settle (environment : Environment) (state : State) (reference : Reference) : Option Value → State
  | some found => state.close reference (some found)
  | none =>
    match environment reference.dotted with
    | some content =>
      (state.note (.fromEnvironment reference.dotted)).close reference (some (.text content))
    | none =>
      if reference.optional then state.close reference none
      else state.answer (.error (.unresolved reference.dotted reference.place))

/-- Go on in a frame with the result that it waited for. -/
def resume (environment : Environment) (source : Value) (state : State) (result : Option Value) :
    Frame → State
  | .listed rest => state.list source rest
  | .search reference => state.settle environment reference result
  | .inside keys => state.answer (.ok (result.bind (·.lookup keys)))
  | .items row resolved rest => state.items row (resolved ++ [result]) rest
  | .field resolved key rest => state.fields (resolved ++ result.toList.map (key, ·)) rest

/-- One step. A fault leaves one frame after the other, and nothing else changes on its way. -/
def next (environment : Environment) (source : Value) (state : State) : State :=
  match state.focus, state.frames with
  | .value value, _ => state.enter value
  | .reference reference, _ => state.search source reference
  | .result result, frame :: frames => { state with frames }.resume environment source result frame
  | .fault _, _ :: frames => { state with frames }
  | .result _, [] | .fault _, [] => state

/-- The first moment of resolving a document. -/
def start (root : Root) (session : Session) : State :=
  if root.references.isEmpty && !root.value.containsPending then
    ⟨.result (some root.value), [], [], [], session⟩
  else
    let live := root.value.references.map (·.id)
    let references := root.references.filter fun reference => live.contains reference.id
    list root.value ⟨.result none, [], [], [], session⟩ references

/-- What resolving has come to, and the session it leaves behind, as soon as no frame waits. -/
def outcome? (state : State) : Option (Except Fault Value × Session) :=
  match state.focus, state.frames with
  | .result result, [] => some (.ok (result.getD (.object [])), state.session)
  | .fault fault, [] => some (.error fault, state.session)
  | _, _ => none

/-- A fault is on its way out. -/
def isFailing (state : State) : Bool :=
  match state.focus with
  | .fault _ => true
  | _ => false

/-- The numbers of the references that are being searched, the latest search first. -/
def searched (state : State) : List Nat :=
  state.frames.filterMap fun frame =>
    match frame with
    | .search reference => some reference.id
    | _ => none

end State

section Playing

variable {environment : Environment} {source : Value}

/-- Some steps lead from one state to another. -/
def Leads (environment : Environment) (source : Value) (first last : State) : Prop :=
  ∃ count, (State.next environment source)^[count] first = last

private theorem Leads.refl (state : State) : Leads environment source state state := ⟨0, rfl⟩

private theorem Leads.step {first middle last : State} (steps : first.next environment source = middle)
    (further : Leads environment source middle last) : Leads environment source first last := by
  obtain ⟨count, same⟩ := further
  exact ⟨count + 1, by rw [Function.iterate_succ_apply, steps, same]⟩

private theorem Leads.trans {first middle last : State} (leads : Leads environment source first middle)
    (further : Leads environment source middle last) : Leads environment source first last := by
  obtain ⟨count, rfl⟩ := leads
  obtain ⟨more, rfl⟩ := further
  exact ⟨more + count, Function.iterate_add_apply _ more count first⟩

/-- Steps from a state come to what a run has come to: to what is made of its result, or to its
fault, with these frames left. -/
def Comes {α : Type} (environment : Environment) (source : Value) (frames : List Frame) (first : State)
    (there : α → Memo → Session → State) : EStateM.Result Fault Session (α × Memo) → Prop
  | .ok (result, memo) session => Leads environment source first (there result memo session)
  | .error fault session => ∃ memo visiting,
    Leads environment source first ⟨.fault fault, frames, memo, visiting, session⟩

private theorem Comes.behind {α : Type} {frames : List Frame} {first middle : State}
    {there : α → Memo → Session → State} {result : EStateM.Result Fault Session (α × Memo)}
    (leads : Leads environment source first middle)
    (comes : Comes environment source frames middle there result) :
    Comes environment source frames first there result :=
  match result, comes with
  | .ok _ _, goes => leads.trans goes
  | .error _ _, ⟨memo, visiting, goes⟩ => ⟨memo, visiting, leads.trans goes⟩

/-- Steps that begin `here` do what a run does. -/
def Plays {α : Type} (environment : Environment) (source : Value) (frames : List Frame)
    (here : Memo → Session → State) (run : Resolving α) (there : α → Memo → Session → State) : Prop :=
  ∀ memo session, Comes environment source frames (here memo session) there (run memo session)

namespace Plays

variable {α β : Type} {frames : List Frame} {here middle : Memo → Session → State}
  {there : α → Memo → Session → State} {run : Resolving α}

private theorem pure {result : α} (leads : ∀ memo session,
    Leads environment source (here memo session) (there result memo session)) :
    Plays environment source frames here (pure result) there := leads

private theorem behind
    (leads : ∀ memo session, Leads environment source (here memo session) (middle memo session))
    (plays : Plays environment source frames middle run there) :
    Plays environment source frames here run there :=
  fun memo session => (plays memo session).behind (leads memo session)

private theorem bind {next : α → Resolving β} {beyond : β → Memo → Session → State}
    (first : Plays environment source frames here run there)
    (second : ∀ result, Plays environment source frames (there result) (next result) beyond) :
    Plays environment source frames here (run >>= next) beyond := by
  intro memo session
  have begins := first memo session
  change Comes environment source frames (here memo session) beyond
    ((run memo >>= fun pair => next pair.1 pair.2) session)
  simp only [Bind.bind, EStateM.bind]
  cases ran : run memo session with
  | error fault later =>
    rw [ran] at begins
    exact begins
  | ok pair later =>
    rw [ran] at begins
    exact (second pair.1 pair.2 later).behind begins

/-- A fault leaves a frame. -/
private theorem leave {frame : Frame} (plays : Plays environment source (frame :: frames) here run there) :
    Plays environment source frames here run there := fun memo session =>
  match run memo session, plays memo session with
  | .ok _ _, goes => goes
  | .error _ _, ⟨after, visiting, goes⟩ => ⟨after, visiting, goes.trans (.step rfl (.refl _))⟩

end Plays

/-- The state with this in view. -/
abbrev viewing (focus : Focus) (frames : List Frame) (visiting : List Nat) : Memo → Session → State :=
  fun memo session => ⟨focus, frames, memo, visiting, session⟩

/-- From what is in view on, steps do what a run with a result does, and leave all else as it is. -/
abbrev Performs (environment : Environment) (source : Value) (visiting : List Nat) (focus : Focus)
    (run : Resolving (Option Value)) : Prop :=
  ∀ frames, Plays environment source frames (viewing focus frames visiting) run
    (fun result => viewing (.result result) frames visiting)

variable {visiting : List Nat} {target : Reference → Resolving (Option Value)}

private theorem plays_answer (focus : Focus) (frames : List Frame) (outcome : Except Fault (Option Value)) :
    Plays environment source frames
      (fun memo session => (viewing focus frames visiting memo session).answer outcome)
      (Run.ofExcept outcome) (fun result => viewing (.result result) frames visiting) := by
  intro memo session
  cases outcome with
  | ok result => exact .refl _
  | error fault => exact ⟨memo, visiting, .refl _⟩

mutual

private theorem performs_value (value : Value)
    (searches : ∀ reference ∈ value.references,
      Performs environment source visiting (.reference reference) (target reference)) :
    Performs environment source visiting (.value value) (Resolution.value target value) := by
  intro frames
  cases value with
  | reference reference =>
    exact .behind (fun _ _ => .step rfl (.refl _))
      (searches reference (List.mem_singleton_self reference) frames)
  | concat pieces =>
    exact .behind (fun _ _ => .step rfl (.refl _)) (plays_items .concat [] _ pieces searches frames)
  | object fields =>
    exact .behind (fun _ _ => .step rfl (.refl _)) (plays_fields [] _ fields searches frames)
  | array elements =>
    exact .behind (fun _ _ => .step rfl (.refl _)) (plays_items .array [] _ elements searches frames)
  | text content => exact .pure fun _ _ => .step rfl (.refl _)
  | null => exact .pure fun _ _ => .step rfl (.refl _)

private theorem plays_items (row : Row) (resolved : List (Option Value)) (focus : Focus) (rest : List Value)
    (searches : ∀ reference ∈ Value.itemReferences rest,
      Performs environment source visiting (.reference reference) (target reference))
    (frames : List Frame) :
    Plays environment source frames
      (fun memo session => (viewing focus frames visiting memo session).items row resolved rest)
      (items target rest >>= fun left => Run.ofExcept (row.close (resolved ++ left)))
      (fun result => viewing (.result result) frames visiting) := by
  match rest with
  | [] =>
    have same : (items target [] >>= fun left =>
        (Run.ofExcept (row.close (resolved ++ left)) : Resolving (Option Value))) =
        Run.ofExcept (row.close resolved) := by simp [items]
    rw [same]
    exact plays_answer focus frames _
  | element :: rest =>
    simp only [Value.itemReferences, List.mem_append] at searches
    have same : (items target (element :: rest) >>= fun left =>
        (Run.ofExcept (row.close (resolved ++ left)) : Resolving (Option Value))) =
        value target element >>= fun first => items target rest >>= fun left =>
          Run.ofExcept (row.close ((resolved ++ [first]) ++ left)) := by simp [items]
    rw [same]
    refine .bind (.leave (performs_value element (fun reference member => searches reference (.inl member))
      (.items row resolved rest :: frames))) fun first => ?_
    exact .behind (fun _ _ => .step rfl (.refl _))
      (plays_items row (resolved ++ [first]) _ rest
        (fun reference member => searches reference (.inr member)) frames)

private theorem plays_fields (resolved : Object) (focus : Focus) (rest : List (String × Value))
    (searches : ∀ reference ∈ Value.fieldReferences rest,
      Performs environment source visiting (.reference reference) (target reference))
    (frames : List Frame) :
    Plays environment source frames
      (fun memo session => (viewing focus frames visiting memo session).fields resolved rest)
      (object target rest >>= fun left => pure (some (.object (resolved ++ left))))
      (fun result => viewing (.result result) frames visiting) := by
  match rest with
  | [] =>
    have same : (object target [] >>= fun left =>
        (pure (some (.object (resolved ++ left))) : Resolving (Option Value))) =
        pure (some (.object resolved)) := by simp [object]
    rw [same]
    exact .pure fun _ _ => .refl _
  | (key, field) :: rest =>
    simp only [Value.fieldReferences, List.mem_append] at searches
    have same : (object target ((key, field) :: rest) >>= fun left =>
        (pure (some (.object (resolved ++ left))) : Resolving (Option Value))) =
        value target field >>= fun first => object target rest >>= fun left =>
          pure (some (.object ((resolved ++ first.toList.map (key, ·)) ++ left))) := by simp [object]
    rw [same]
    refine .bind (.leave (performs_value field (fun reference member => searches reference (.inl member))
      (.field resolved key rest :: frames))) fun first => ?_
    exact .behind (fun _ _ => .step rfl (.refl _))
      (plays_fields _ _ rest (fun reference member => searches reference (.inr member)) frames)

end

private theorem plays_follow (available : List Nat) (reference : Reference) (frames : List Frame)
    (searches : ∀ other ∈ source.references,
      Performs environment source visiting (.reference other)
        (Resolution.target environment source available other)) :
    Plays environment source (.search reference :: frames)
      (fun memo session => match source.reach reference.path with
        | some (node, keys) =>
          viewing (.value node) (.inside keys :: .search reference :: frames) visiting memo session
        | none => viewing (.result none) (.search reference :: frames) visiting memo session)
      (follow environment source available reference.path)
      (fun found => viewing (.result found) (.search reference :: frames) visiting) := by
  unfold follow
  cases reached : source.reach reference.path with
  | none => exact .pure fun _ _ => .refl _
  | some stop =>
    obtain ⟨node, keys⟩ := stop
    have live := Value.references_of_stops (Value.stops_of_reach reached)
    refine .bind (.leave (performs_value node (fun other member => searches other (live member))
      (.inside keys :: .search reference :: frames))) fun whole => ?_
    exact .pure fun _ _ => .step rfl (.refl _)

/-- One step closes a search, whose number may be met again then, or ends in a fault. -/
private theorem plays_record (reference : Reference) (frames : List Frame) (found : Option Value)
    (fresh : reference.id ∉ visiting) :
    Plays environment source frames
      (viewing (.result found) (.search reference :: frames) (reference.id :: visiting))
      (record environment reference found) (fun result => viewing (.result result) frames visiting) := by
  have closed : (reference.id :: visiting).filter (· != reference.id) = visiting := by
    rw [List.filter_cons_of_neg (by simp), List.filter_eq_self.mpr]
    intro id member
    simpa using ne_of_mem_of_not_mem member fresh
  intro memo session
  cases found with
  | some value =>
    refine .step ?_ (.refl _)
    simp [State.next, State.resume, State.settle, State.close, State.note, closed]
  | none =>
    cases supplied : environment reference.dotted with
    | some content =>
      simp only [record, supply, fallback, supplied]
      refine Leads.step ?_ (.refl _)
      simp [State.next, State.resume, State.settle, State.close, State.note, supplied, closed]
    | none =>
      cases optional : reference.optional with
      | true =>
        simp only [record, supply, fallback, supplied, optional]
        refine Leads.step ?_ (.refl _)
        simp [State.next, State.resume, State.settle, State.close, State.note, supplied, optional, closed]
      | false =>
        simp only [record, supply, fallback, supplied, optional]
        refine ⟨memo, reference.id :: visiting, .step ?_ (.refl _)⟩
        simp [State.next, State.resume, State.settle, State.answer, supplied, optional]

/-- Steps search for a reference as long as the numbers in the document that may still be met are
those that are not being visited. -/
private theorem performs_target (available visiting : List Nat) (reference : Reference)
    (live : reference.id ∈ source.references.map (·.id))
    (apart : ∀ id ∈ source.references.map (·.id), id ∈ available ↔ id ∉ visiting) :
    Performs environment source visiting (.reference reference)
      (Resolution.target environment source available reference) := by
  intro frames memo session
  rw [target_eq]
  change Comes environment source frames _ _ ((match memo.lookup reference.id with
    | some known => pure known
    | none =>
      if reference.id ∈ available then
        follow environment source (without available reference.id) reference.path >>=
          record environment reference
      else throw (.referenceCycle reference.dotted) : Resolving (Option Value)) memo session)
  cases known : memo.lookup reference.id with
  | some result => exact .step (by simp [State.next, State.search, State.answer, known]) (.refl _)
  | none =>
    by_cases member : reference.id ∈ available
    · have fresh := (apart _ live).mp member
      have further : ∀ id ∈ source.references.map (·.id),
          id ∈ without available reference.id ↔ id ∉ reference.id :: visiting := by
        intro id among
        simp only [without, List.mem_filter, apart id among, List.mem_cons, not_or, bne_iff_ne,
          and_comm]
      have searches : ∀ other ∈ source.references,
          Performs environment source (reference.id :: visiting) (.reference other)
            (Resolution.target environment source (without available reference.id) other) :=
        fun other among => performs_target _ _ other (List.mem_map_of_mem among) further
      simp only [member, if_true]
      refine ((plays_follow _ reference frames searches).leave.bind
        (plays_record reference frames · fresh) memo session).behind (.step ?_ (.refl _))
      simp only [State.next, State.search, known, fresh, if_false]
    · have visited := not_not.mp (mt (apart _ live).mpr member)
      simp only [member, if_false]
      refine ⟨memo, visiting, .step ?_ (.refl _)⟩
      simp [State.next, State.search, State.answer, known, visited]
termination_by available.length
decreasing_by exact length_without_lt member

private theorem plays_list (focus : Focus) (references : List Reference)
    (listed : ∀ reference ∈ references,
      Performs environment source visiting (.reference reference) (target reference))
    (searches : ∀ reference ∈ source.references,
      Performs environment source visiting (.reference reference) (target reference)) :
    Plays environment source []
      (fun memo session => (viewing focus [] visiting memo session).list source references)
      ((references.forM fun reference => discard (target reference)) >>= fun _ => value target source)
      (fun result => viewing (.result result) [] visiting) := by
  induction references generalizing focus with
  | nil => exact performs_value source searches []
  | cons reference rest ih =>
    have same : (((reference :: rest).forM fun reference => discard (target reference)) >>= fun _ =>
        value target source) = target reference >>= fun _ =>
          (rest.forM fun reference => discard (target reference)) >>= fun _ => value target source := by
      simp [List.forM_cons, discard_eq]
    rw [same]
    obtain ⟨first, others⟩ := List.forall_mem_cons.mp listed
    refine .bind (.leave (first [.listed rest])) fun result => ?_
    exact .behind (fun _ _ => .step rfl (.refl _)) (ih (.result result) others)

end Playing

/-- Some number of steps into resolving, its outcome is there, and no step changes it. -/
theorem State.leads_to_outcome (environment : Environment) (root : Root) (session : Session) :
    ∃ last, Leads environment root.value (.start root session) last ∧
      last.outcome? = some ((root.resolve environment).outcome session) ∧
      last.next environment root.value = last := by
  unfold Root.resolve State.start
  by_cases settled : (root.references.isEmpty && !root.value.containsPending) = true
  · simp only [settled, if_true]
    exact ⟨_, .refl _, rfl, rfl⟩
  · simp only [settled, Bool.false_eq_true, if_false]
    have apart : ∀ id ∈ root.value.references.map (·.id),
        id ∈ root.value.references.map (·.id) ↔ id ∉ [] := by simp
    have goes := @plays_list environment root.value _ _ (.result none)
      (root.references.filter fun reference => (root.value.references.map (·.id)).contains reference.id)
      (fun reference member => performs_target _ _ reference (by simpa using (List.mem_filter.mp member).2)
        apart)
      (fun reference member => performs_target _ _ reference (List.mem_map_of_mem member) apart) [] session
    change Comes environment root.value [] _ _ (whole environment root.value _ _ [] session) at goes
    simp only [Run.outcome, StateT.run, Bind.bind, EStateM.bind]
    cases ran : whole environment root.value (root.value.references.map (·.id))
        (root.references.filter fun reference =>
          (root.value.references.map (·.id)).contains reference.id) [] session with
    | ok pair later =>
      rw [ran] at goes
      exact ⟨_, goes, rfl, rfl⟩
    | error fault later =>
      rw [ran] at goes
      obtain ⟨memo, visiting, goes⟩ := goes
      exact ⟨_, goes, rfl, rfl⟩

end Hocon.Resolution
