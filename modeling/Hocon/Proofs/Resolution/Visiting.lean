import Hocon.Proofs.Resolution.Moments
import Mathlib.Data.List.Dedup
import Mathlib.Data.List.Perm.Subperm

namespace Hocon
namespace Resolution

def Focus.references : Focus → List Reference
  | .value whole => whole.references
  | .reference sought => [sought]
  | .result _ | .fault _ => []

def Frame.references : Frame → List Reference
  | .listed rest => rest
  | .search sought => [sought]
  | .inside _ => []
  | .items _ _ rest => Value.itemReferences rest
  | .field _ _ rest => Value.fieldReferences rest

namespace State

variable {environment : Environment} {source : Value} {state : State}

/-- The references that a state can come across without looking into the document. -/
def references (state : State) : List Reference :=
  state.focus.references ++ state.frames.flatMap Frame.references

/-- Every number being visited belongs to a search of its own on the stack. -/
structure Level (state : State) : Prop where
  distinct : state.searched.Nodup
  current : state.visiting = state.searched

/-- Searches are for numbers of their own, and these are among those being visited; as long as
there is no fault they are all of those. -/
structure Balanced (state : State) : Prop where
  distinct : state.searched.Nodup
  kept : state.searched <:+ state.visiting
  current : state.isFailing = false → state.visiting = state.searched

private theorem Level.balanced (level : state.Level) : state.Balanced :=
  ⟨level.distinct, level.current ▸ List.suffix_refl _, fun _ => level.current⟩

private theorem Balanced.level (balanced : state.Balanced) (running : state.isFailing = false) : state.Level :=
  ⟨balanced.distinct, balanced.current running⟩

private theorem Level.answer (level : state.Level) (outcome : Except Fault (Option Value)) :
    (state.answer outcome).Level := by
  cases outcome <;> exact ⟨level.distinct, level.current⟩

private theorem Level.items (level : state.Level) (row : Row) (resolved : List (Option Value))
    (rest : List Value) : (state.items row resolved rest).Level := by
  cases rest with
  | nil => exact level.answer _
  | cons => exact ⟨level.distinct, level.current⟩

private theorem Level.fields (level : state.Level) (resolved rest : Object) :
    (state.fields resolved rest).Level := by
  cases rest with
  | nil => exact level.answer (.ok (some (.object resolved)))
  | cons => exact ⟨level.distinct, level.current⟩

private theorem Level.list (level : state.Level) (rest : List Reference) : (state.list source rest).Level := by
  cases rest <;> exact ⟨level.distinct, level.current⟩

private theorem Level.enter (level : state.Level) (value : Value) : (state.enter value).Level := by
  cases value with
  | reference => exact ⟨level.distinct, level.current⟩
  | concat => exact level.items _ _ _
  | object => exact level.fields _ _
  | array => exact level.items _ _ _
  | text content => exact level.answer (.ok (some (.text content)))
  | null => exact level.answer (.ok (some .null))

private theorem Level.search (level : state.Level) (reference : Reference) :
    (state.search source reference).Level := by
  unfold State.search
  cases state.memo.lookup reference.id with
  | some known => exact level.answer _
  | none =>
    by_cases visited : reference.id ∈ state.visiting
    · simp only [visited, if_true]
      exact level.answer _
    · simp only [visited, if_false]
      have fresh : (reference.id :: state.searched).Nodup :=
        List.nodup_cons.mpr ⟨level.current ▸ visited, level.distinct⟩
      have current : reference.id :: state.visiting = reference.id :: state.searched := by rw [level.current]
      cases source.reach reference.path with
      | none => exact ⟨fresh, current⟩
      | some stop => exact ⟨fresh, current⟩

/-- A search is over when its number may be met again; a fault leaves the number behind. -/
private theorem Balanced.settle (reference : Reference) (found : Option Value)
    (distinct : (reference.id :: state.searched).Nodup)
    (current : state.visiting = reference.id :: state.searched) :
    (state.settle environment reference found).Balanced := by
  have closed : state.visiting.filter (· != reference.id) = state.searched := by
    rw [current, List.filter_cons_of_neg (by simp), List.filter_eq_self.mpr]
    intro id member
    simpa using ne_of_mem_of_not_mem member (List.nodup_cons.mp distinct).1
  have remaining := (List.nodup_cons.mp distinct).2
  cases found with
  | some found => exact Level.balanced ⟨remaining, closed⟩
  | none =>
    unfold State.settle
    cases environment reference.dotted with
    | some content => exact Level.balanced ⟨remaining, closed⟩
    | none =>
      cases reference.optional with
      | true => exact Level.balanced ⟨remaining, closed⟩
      | false => exact ⟨remaining, current ▸ List.suffix_cons _ _, nofun⟩

/-- One step keeps the balance. -/
private theorem Balanced.next (balanced : state.Balanced) : (state.next environment source).Balanced := by
  obtain ⟨focus, frames, memo, visiting, session⟩ := state
  cases focus with
  | value value => exact ((balanced.level rfl).enter value).balanced
  | reference reference => exact ((balanced.level rfl).search reference).balanced
  | result result =>
    have level := balanced.level rfl
    cases frames with
    | nil => exact level.balanced
    | cons frame frames =>
      -- Without a search in front the stack below it is as level as before.
      have below : searched ⟨.result result, frames, memo, visiting, session⟩ =
          searched ⟨.result result, frame :: frames, memo, visiting, session⟩ →
          Level ⟨.result result, frames, memo, visiting, session⟩ :=
        fun same => ⟨same ▸ level.distinct, level.current.trans same.symm⟩
      cases frame with
      | listed rest => exact ((below rfl).list rest).balanced
      | search reference => exact Balanced.settle reference result level.distinct level.current
      | inside keys => exact ((below rfl).answer (.ok (result.bind (·.lookup keys)))).balanced
      | items row resolved rest => exact ((below rfl).items row (resolved ++ [result]) rest).balanced
      | field resolved key rest =>
        exact ((below rfl).fields (resolved ++ result.toList.map (key, ·)) rest).balanced
  | fault fault =>
    cases frames with
    | nil => exact balanced
    | cons frame frames =>
      have later : searched ⟨.fault fault, frames, memo, visiting, session⟩ <:+
          searched ⟨.fault fault, frame :: frames, memo, visiting, session⟩ :=
        (List.suffix_cons frame frames).filterMap _
      exact ⟨balanced.distinct.sublist later.sublist, later.trans balanced.kept, nofun⟩

@[simp]
private theorem references_answer (outcome : Except Fault (Option Value)) :
    (state.answer outcome).references = state.frames.flatMap Frame.references := by
  cases outcome <;> rfl

private theorem references_items (row : Row) (resolved : List (Option Value)) (rest : List Value) :
    (state.items row resolved rest).references =
      Value.itemReferences rest ++ state.frames.flatMap Frame.references := by
  cases rest with
  | nil => exact references_answer _
  | cons => simp [items, references, Focus.references, Frame.references, Value.itemReferences]

private theorem references_fields (resolved rest : Object) :
    (state.fields resolved rest).references =
      Value.fieldReferences rest ++ state.frames.flatMap Frame.references := by
  cases rest with
  | nil => rfl
  | cons field rest => simp [fields, references, Focus.references, Frame.references, Value.fieldReferences]

private theorem references_list (rest : List Reference) :
    (state.list source rest).references ⊆
      source.references ++ (rest ++ state.frames.flatMap Frame.references) := by
  cases rest with
  | nil => exact List.Subset.refl _
  | cons reference rest => exact List.subset_append_right _ _

private theorem references_enter (whole : Value) :
    (state.enter whole).references = whole.references ++ state.frames.flatMap Frame.references := by
  cases whole with
  | reference => rfl
  | concat => exact references_items _ _ _
  | object => exact references_fields _ _
  | array => exact references_items _ _ _
  | text => rfl
  | null => rfl

private theorem references_search (reference : Reference) :
    (state.search source reference).references ⊆
      source.references ++ (reference :: state.frames.flatMap Frame.references) := by
  have frames : state.frames.flatMap Frame.references ⊆
      source.references ++ (reference :: state.frames.flatMap Frame.references) :=
    fun other member => List.mem_append_right _ (List.mem_cons_of_mem reference member)
  unfold State.search
  cases state.memo.lookup reference.id with
  | some known => exact frames
  | none =>
    by_cases visited : reference.id ∈ state.visiting
    · simp only [visited, if_true]
      exact frames
    · simp only [visited, if_false]
      cases reached : source.reach reference.path with
      | none => exact List.subset_append_right _ _
      | some stop =>
        have live := Value.references_of_stops (Value.stops_of_reach reached)
        exact List.append_subset.mpr
          ⟨List.Subset.trans live (List.subset_append_left _ _), List.subset_append_right _ _⟩

private theorem references_settle (reference : Reference) (found : Option Value) :
    (state.settle environment reference found).references = state.frames.flatMap Frame.references := by
  cases found with
  | some found => rfl
  | none =>
    unfold State.settle
    cases environment reference.dotted with
    | some content => rfl
    | none => cases reference.optional <;> rfl

/-- One step comes across nothing that is not in the document or in sight already. -/
private theorem references_next :
    (state.next environment source).references ⊆ source.references ++ state.references := by
  obtain ⟨focus, frames, memo, visiting, session⟩ := state
  cases focus with
  | value whole =>
    simp only [State.next, references_enter]
    exact List.subset_append_right _ _
  | reference reference => exact references_search reference
  | result result =>
    cases frames with
    | nil => exact List.subset_append_right _ _
    | cons frame frames =>
      cases frame with
      | listed rest => exact references_list rest
      | search reference =>
        simp only [State.next, State.resume, references_settle]
        exact List.Subset.trans (List.subset_cons_self reference _) (List.subset_append_right _ _)
      | inside keys => exact List.subset_append_right _ _
      | items row resolved rest =>
        simp only [State.next, State.resume, references_items]
        exact List.subset_append_right _ _
      | field resolved key rest =>
        simp only [State.next, State.resume, references_fields]
        exact List.subset_append_right _ _
  | fault fault =>
    cases frames with
    | nil => exact List.subset_append_right _ _
    | cons frame frames => exact List.Subset.trans (List.subset_append_right _ _) (List.subset_append_right _ _)

private theorem searched_subset : state.searched ⊆ state.references.map (·.id) := by
  intro id member
  obtain ⟨frame, among, same⟩ := List.mem_filterMap.mp member
  cases frame with
  | search reference =>
    cases same
    exact List.mem_map_of_mem (List.mem_append_right _ (List.mem_flatMap.mpr
      ⟨.search reference, among, List.mem_singleton_self reference⟩))
  | _ => cases same

/-- What holds of a state in which a document is being resolved. -/
structure Sound (root : Root) (state : State) : Prop where
  known : state.references ⊆ root.value.references ++ root.references
  balanced : state.Balanced

private theorem Sound.start (root : Root) (session : Session) : Sound root (.start root session) := by
  unfold State.start
  by_cases settled : (root.references.isEmpty && !root.value.containsPending) = true
  · simp only [settled, if_true]
    exact ⟨List.nil_subset _, List.nodup_nil, List.suffix_refl _, fun _ => rfl⟩
  · simp only [settled, Bool.false_eq_true, if_false]
    have level : Level ⟨.result none, [], [], [], session⟩ := ⟨List.nodup_nil, rfl⟩
    refine ⟨List.Subset.trans (references_list _) (List.append_subset.mpr ⟨List.subset_append_left _ _, ?_⟩),
      (level.list _).balanced⟩
    rw [List.flatMap_nil, List.append_nil]
    exact List.Subset.trans (List.filter_subset_self _) (List.subset_append_right _ _)

private theorem Sound.next {root : Root} (sound : Sound root state) :
    Sound root (state.next environment root.value) :=
  ⟨List.Subset.trans references_next (List.append_subset.mpr ⟨List.subset_append_left _ _, sound.known⟩),
    sound.balanced.next⟩

/-- The state at a moment of resolving a document. -/
def moment (environment : Environment) (root : Root) (session : Session) (time : Nat) : State :=
  (State.next environment root.value)^[time] (.start root session)

private theorem Sound.moment (environment : Environment) (root : Root) (session : Session) (time : Nat) :
    Sound root (moment environment root session time) := by
  induction time with
  | zero => exact .start root session
  | succ time ih =>
    rw [State.moment, Function.iterate_succ_apply']
    exact ih.next

end State
end Resolution

/-- The numbers of the references in a document and of those in its list. -/
def Root.numbers (root : Root) : List Nat := (root.value.references ++ root.references).map (·.id)

open Resolution in
/-- Resolving a document ends, whatever is in its value and in its list. At no moment are there more
searches under way than there are numbers, and each is for a number of its own. The numbers being
visited are those of the searches under way; when a fault is on its way out, some whose search the
fault has left already may be among them. -/
theorem Root.resolution_ends (environment : Environment) (root : Root) (session : Session) :
    (∃ last, ∀ time ≥ last, (State.moment environment root session time).outcome? =
      some ((root.resolve environment).outcome session)) ∧
    ∀ time, let state := State.moment environment root session time
      state.searched.Nodup ∧ state.searched.length ≤ root.numbers.dedup.length ∧
      if state.isFailing then state.searched ⊆ state.visiting
      else ∀ id, id ∈ state.visiting ↔ id ∈ state.searched := by
  refine ⟨?_, fun time => ?_⟩
  · obtain ⟨last, ⟨count, leads⟩, outcome, still⟩ := State.leads_to_outcome environment root session
    refine ⟨count, fun time later => ?_⟩
    obtain ⟨more, rfl⟩ := Nat.exists_eq_add_of_le' later
    rw [State.moment, Function.iterate_add_apply, leads, Function.iterate_fixed still, outcome]
  · have sound := State.Sound.moment environment root session time
    refine ⟨sound.balanced.distinct, ?_, ?_⟩
    · have among : (State.moment environment root session time).searched ⊆ root.numbers.dedup :=
        fun id member => List.mem_dedup.mpr (List.map_subset _ sound.known (State.searched_subset member))
      exact (sound.balanced.distinct.subperm among).length_le
    · split
      · exact sound.balanced.kept.subset
      · next running => simp [sound.balanced.current (by simpa using running)]

/-- A reference that stands for itself is met again in its own search, and is still being visited when
the fault has left the search. -/
example : let itself : Reference := ⟨0, ["a"], false, 1, 6⟩
    let state := Resolution.State.moment (fun _ => none) ⟨.object [("a", .reference itself)], [itself]⟩ .start 5
    state.isFailing = true ∧ state.visiting = [0] ∧ state.searched = [] := by decide

end Hocon
