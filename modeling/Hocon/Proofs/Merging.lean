import Hocon.Proofs.Keys
import Mathlib.Data.List.Induction

namespace Hocon

namespace Object

variable {fields base built incoming : Object} {key name : String} {change again : Option Value → Value}

/-- What stands at a key is all that a change looks at. -/
theorem update_congr (same : change (fields.lookup key) = again (fields.lookup key)) :
    update fields key change = update fields key again := by
  induction fields with
  | nil =>
    have same : change none = again none := same
    rw [update, update, same]
  | cons field rest ih =>
    obtain ⟨other, value⟩ := field
    by_cases found : other = key
    · subst found
      rw [List.lookup_cons_self] at same
      rw [update, update, if_pos rfl, if_pos rfl, same]
    · have apart : (key == other) = false := by simpa using Ne.symm found
      rw [List.lookup_cons, apart] at same
      rw [update, update, if_neg found, if_neg found, ih same]

private theorem update_update (fields : Object) (key : String) (change again : Option Value → Value) :
    update (update fields key change) key again = update fields key fun old => again (some (change old)) := by
  induction fields with
  | nil => simp [update]
  | cons field rest ih =>
    obtain ⟨other, value⟩ := field
    by_cases found : other = key
    · simp [update, found]
    · simp [update, found, ih]

/-- A field that is there is changed before or after another one. -/
private theorem update_comm (present : key ∈ keys fields) (apart : name ≠ key) :
    update (update fields name change) key again = update (update fields key again) name change := by
  induction fields with
  | nil => cases present
  | cons field rest ih =>
    obtain ⟨other, value⟩ := field
    by_cases first : other = key
    · subst first
      simp [update, Ne.symm apart]
    · have present : key ∈ keys rest := (List.mem_cons.mp present).resolve_left (Ne.symm first)
      by_cases second : other = name
      · subst second
        simp [update, first]
      · simp [update, first, second, ih present]

private theorem mem_keys_update (present : key ∈ keys fields) : key ∈ keys (update fields name change) := by
  rw [keys_update]
  split
  · exact present
  · exact List.mem_append_left _ present

private theorem nodup_update (distinct : (keys fields).Nodup) : (keys (update fields key change)).Nodup := by
  rw [keys_update]
  split
  case isTrue => exact distinct
  case isFalse fresh =>
    refine List.nodup_append.mpr ⟨distinct, List.pairwise_singleton _ key, fun other member last single => ?_⟩
    obtain rfl := List.mem_singleton.mp single
    rintro rfl
    exact fresh member

private theorem lookup_eq_none_of_notMem (absent : key ∉ keys fields) : fields.lookup key = none := by
  refine List.lookup_eq_none_iff.mpr fun field member => ?_
  have different : field.1 ≠ key := by
    rintro rfl
    exact absent (List.mem_map_of_mem member)
  simpa using Ne.symm different

/-- A field that is not merged in is changed before or after that. -/
private theorem update_merge (present : key ∈ keys base) (absent : key ∉ keys incoming) :
    update (merge base incoming) key change = merge (update base key change) incoming := by
  induction incoming generalizing base with
  | nil => simp [merge]
  | cons field rest ih =>
    obtain ⟨other, value⟩ := field
    obtain ⟨apart, absent⟩ := not_or.mp (mt List.mem_cons.mpr absent)
    simp only [merge]
    rw [ih (mem_keys_update present) absent, update_comm present (Ne.symm apart)]

private theorem lookup_merge (distinct : (keys incoming).Nodup) (base : Object) (key : String) :
    (merge base incoming).lookup key =
      match incoming.lookup key with
      | some value => some (overlay (base.lookup key) value)
      | none => base.lookup key := by
  induction incoming generalizing base with
  | nil => simp [merge]
  | cons field rest ih =>
    obtain ⟨other, value⟩ := field
    obtain ⟨fresh, distinct⟩ := List.nodup_cons.mp distinct
    rw [merge, ih distinct]
    by_cases same : other = key
    · subst same
      rw [lookup_eq_none_of_notMem fresh, List.lookup_cons_self, lookup_update_self]
    · have apart : (key == other) = false := by simpa using Ne.symm same
      simp only [List.lookup_cons, apart, lookup_update_ne base _ (Ne.symm same)]

private theorem merge_update (distinct : (keys built).Nodup)
    (same : overlay (base.lookup key) (change (built.lookup key)) = again ((merge base built).lookup key)) :
    merge base (update built key change) = update (merge base built) key again := by
  rw [lookup_merge distinct] at same
  induction built generalizing base with
  | nil => exact update_congr same
  | cons field rest ih =>
    obtain ⟨other, value⟩ := field
    obtain ⟨fresh, distinct⟩ := List.nodup_cons.mp distinct
    by_cases found : other = key
    · subst found
      rw [List.lookup_cons_self] at same
      have present : other ∈ keys (update base other fun old => overlay old value) := by
        rw [keys_update]
        split
        · assumption
        · exact List.mem_append_right _ List.mem_cons_self
      rw [update, if_pos rfl, merge, merge, update_merge present fresh, update_update]
      exact congrArg (merge · rest) (update_congr same)
    · have apart : (key == other) = false := by simpa using Ne.symm found
      rw [List.lookup_cons, apart] at same
      rw [update, if_neg found, merge, merge]
      refine ih distinct ?_
      rw [lookup_update_ne base _ (Ne.symm found)]
      exact same

end Object

namespace Value

/-- An object stands at the end of the path. -/
def HasObject (value : Value) (path : List String) : Prop := ∃ fields, value.lookup path = some (.object fields)

/-- Where the first value and the last one have an object, the one between them has an object or
nothing. -/
def Unobstructed (base built incoming : Value) : Prop :=
  ∀ path between, base.HasObject path → incoming.HasObject path → built.lookup path = some between →
    between.isObject = true

theorem lookup_cons_of_lookup {fields : Object} {key : String} {value : Value} {path : List String}
    (found : fields.lookup key = some value) : (object fields).lookup (key :: path) = value.lookup path := by
  simp [lookup, found]

theorem lookup_cons (fields : Object) (key : String) (path : List String) :
    (object fields).lookup (key :: path) = (fields.lookup key).bind (·.lookup path) := by
  rw [lookup]
  cases fields.lookup key <;> rfl

theorem lookup_singleton (fields : Object) (key : String) : (object fields).lookup [key] = fields.lookup key := by
  rw [lookup_cons]
  cases fields.lookup key <;> rfl

private theorem Unobstructed.below {base built incoming : Object} {key : String} {first between last : Value}
    (free : Unobstructed (.object base) (.object built) (.object incoming))
    (under : base.lookup key = some first) (inside : built.lookup key = some between)
    (above : incoming.lookup key = some last) : Unobstructed first between last := by
  intro path value low high found
  refine free (key :: path) value ?_ ?_ ?_
  · obtain ⟨fields, low⟩ := low
    exact ⟨fields, by rw [lookup_cons_of_lookup under, low]⟩
  · obtain ⟨fields, high⟩ := high
    exact ⟨fields, by rw [lookup_cons_of_lookup above, high]⟩
  · rw [lookup_cons_of_lookup inside, found]

private theorem Unobstructed.behind {base built rest : Object} {key : String} {value : Value}
    {change : Option Value → Value} (fresh : key ∉ Object.keys rest)
    (free : Unobstructed (.object base) (.object built) (.object ((key, value) :: rest))) :
    Unobstructed (.object base) (.object (Object.update built key change)) (.object rest) := by
  intro path between low high found
  cases path with
  | nil =>
    cases found
    rfl
  | cons other path =>
    obtain ⟨fields, high⟩ := high
    have apart : other ≠ key := by
      rintro rfl
      simp [lookup, Object.lookup_eq_none_of_notMem fresh] at high
    have differs : (other == key) = false := by simpa using apart
    refine free (other :: path) between low ⟨fields, ?_⟩ ?_
    · simpa [lookup, List.lookup_cons, differs] using high
    · simpa [lookup, Object.lookup_update_ne built change apart] using found

end Value

namespace Object

open Value (Unobstructed keysDistinct)

/-- What comes of one optional value laid over another. -/
def stack (old : Option Value) : Option Value → Option Value
  | some value => some (overlay old value)
  | none => old

theorem lookup_merge_eq_stack {incoming : Object} (distinct : (keys incoming).Nodup) (base : Object)
    (key : String) : (merge base incoming).lookup key = stack (base.lookup key) (incoming.lookup key) := by
  rw [lookup_merge distinct]
  cases incoming.lookup key <;> rfl

theorem overlay_of_not_object {old : Option Value} {value : Value} (plain : value.isObject = false) :
    overlay old value = value := by
  cases value <;> first | rfl | cases plain

private theorem overlay_over_none {old : Option Value} {value : Value}
    (none : ∀ base, old ≠ some (.object base)) :
    overlay old value = value := by
  cases value with
  | object incoming =>
    match old with
    | some (.object base) => exact absurd rfl (none base)
    | .none | some (.array _) | some (.text _) | some .null | some (.reference _) | some (.concat _) => rfl
  | array | text | null | reference | concat => rfl

end Object

namespace Value

variable {fields incoming : Object} {key : String} {change : Option Value → Value}

private theorem keysDistinct_object_iff : (object fields).keysDistinct = true ↔
    (Object.keys fields).Nodup ∧ ∀ field ∈ fields, field.2.keysDistinct = true := by
  simp [keysDistinct, fieldsKeysDistinct_eq]

private theorem mem_update {field : String × Value} (member : field ∈ Object.update fields key change) :
    field ∈ fields ∨ field = (key, change (fields.lookup key)) := by
  induction fields with
  | nil => exact .inr (List.mem_singleton.mp member)
  | cons first rest ih =>
    obtain ⟨other, value⟩ := first
    by_cases found : other = key
    · subst found
      rw [Object.update, if_pos rfl] at member
      rcases List.mem_cons.mp member with rfl | member
      · exact .inr (by rw [List.lookup_cons_self])
      · exact .inl (List.mem_cons_of_mem _ member)
    · have apart : (key == other) = false := by simpa using Ne.symm found
      rw [Object.update, if_neg found] at member
      rcases List.mem_cons.mp member with rfl | member
      · exact .inl List.mem_cons_self
      · rw [List.lookup_cons, apart]
        exact (ih member).imp_left (List.mem_cons_of_mem _)

private theorem keysDistinct_update (distinct : (object fields).keysDistinct = true)
    (changed : (change (fields.lookup key)).keysDistinct = true) :
    (object (Object.update fields key change)).keysDistinct = true := by
  obtain ⟨own, inside⟩ := keysDistinct_object_iff.mp distinct
  refine keysDistinct_object_iff.mpr ⟨Object.nodup_update own, fun field member => ?_⟩
  rcases mem_update member with old | rfl
  · exact inside field old
  · exact changed

mutual

theorem keysDistinct_merge (base : Object) (incoming : List (String × Value))
    (own : (object base).keysDistinct = true) (distinct : fieldsKeysDistinct incoming = true) :
    (object (Object.merge base incoming)).keysDistinct = true := by
  cases incoming with
  | nil => simpa [Object.merge] using own
  | cons field rest =>
    obtain ⟨key, value⟩ := field
    obtain ⟨first, others⟩ := Bool.and_eq_true_iff.mp distinct
    rw [Object.merge]
    refine keysDistinct_merge _ rest (keysDistinct_update own ?_) others
    exact keysDistinct_overlay (base.lookup key) value (fun _ => keysDistinct_of_lookup own) first

private theorem keysDistinct_overlay (old : Option Value) (value : Value)
    (own : ∀ base, old = some base → base.keysDistinct = true) (distinct : value.keysDistinct = true) :
    (Object.overlay old value).keysDistinct = true := by
  cases value with
  | object incoming =>
    match old with
    | some (.object base) =>
      exact keysDistinct_merge base incoming (own _ rfl) (Bool.and_eq_true_iff.mp distinct).2
    | none | some (.array _) | some (.text _) | some .null | some (.reference _) | some (.concat _) =>
      exact distinct
  | array | text | null | reference | concat => exact distinct

end

end Value

namespace Object

open Value (Unobstructed)

mutual

/-- To merge in one object and then another is to merge in what the two make, where nothing
stands between two objects. -/
theorem merge_merge (base built : Object) (incoming : List (String × Value))
    (own : (Value.object built).keysDistinct = true) (distinct : (Value.object incoming).keysDistinct = true)
    (free : Unobstructed (.object base) (.object built) (.object incoming)) :
    merge (merge base built) incoming = merge base (merge built incoming) := by
  cases incoming with
  | nil => simp [merge]
  | cons field rest =>
    obtain ⟨key, value⟩ := field
    obtain ⟨different, inner⟩ := Bool.and_eq_true_iff.mp distinct
    obtain ⟨fresh, nodup⟩ := List.nodup_cons.mp (of_decide_eq_true different)
    obtain ⟨first, others⟩ := Bool.and_eq_true_iff.mp inner
    have laid := overlay_stack (base.lookup key) (built.lookup key) value
      (fun _ => Value.keysDistinct_of_lookup own) first fun under inside low within =>
        free.below low within List.lookup_cons_self
    have step : merge base (update built key fun old => overlay old value) =
        update (merge base built) key fun old => overlay old value := by
      refine merge_update (Value.keysDistinct_object own).1 ?_
      rw [lookup_merge_eq_stack (Value.keysDistinct_object own).1]
      exact laid
    rw [merge, merge, ← step]
    refine merge_merge base _ rest (Value.keysDistinct_update own ?_) ?_ (free.behind fresh)
    · exact Value.keysDistinct_overlay _ value (fun _ => Value.keysDistinct_of_lookup own) first
    · exact Bool.and_eq_true_iff.mpr ⟨decide_eq_true nodup, others⟩

private theorem overlay_stack (old mid : Option Value) (value : Value)
    (own : ∀ between, mid = some between → between.keysDistinct = true) (distinct : value.keysDistinct = true)
    (free : ∀ under between, old = some under → mid = some between → Unobstructed under between value) :
    overlay old (overlay mid value) = overlay (stack old mid) value := by
  cases value with
  | array | text | null | reference | concat => rfl
  | object incoming =>
    cases mid with
    | none => rfl
    | some between =>
      by_cases under : ∃ base, old = some (.object base)
      · obtain ⟨base, rfl⟩ := under
        have free := free _ _ rfl rfl
        cases between with
        | object built => exact congrArg Value.object (merge_merge base built incoming (own _ rfl) distinct free).symm
        | array | text | null | reference | concat =>
          cases free [] _ ⟨base, rfl⟩ ⟨incoming, rfl⟩ rfl
      · have none : ∀ base, old ≠ some (.object base) := fun base same => under ⟨base, same⟩
        rw [overlay_over_none none, stack, overlay_over_none none]

end

end Object

namespace Value

theorem keysDistinct_nest (keys : List String) (value : Value) :
    (Object.nest keys value).keysDistinct = value.keysDistinct := by
  induction keys with
  | nil => rfl
  | cons key keys ih => simpa [Object.nest, keysDistinct, fieldsKeysDistinct, Object.keys] using ih

private theorem keysDistinct_grow {value : Value} (distinct : value.keysDistinct = true) (old : Option Value)
    (own : ∀ base, old = some base → base.keysDistinct = true) :
    (Object.grow value old).keysDistinct = true := by
  match old with
  | none => simp [Object.grow, keysDistinct, itemsKeysDistinct, distinct]
  | some (.array items) =>
    have inside : itemsKeysDistinct items = true := own _ rfl
    simpa [Object.grow, keysDistinct, itemsKeysDistinct_eq, distinct] using inside
  | some (.object inner) =>
    have inside : (object inner).keysDistinct = true := own _ rfl
    simpa [Object.grow, keysDistinct, itemsKeysDistinct, distinct] using inside
  | some (.concat pieces) =>
    have inside : itemsKeysDistinct pieces = true := own _ rfl
    simp [Object.grow, keysDistinct, itemsKeysDistinct, distinct, inside]
  | some (.text _) | some .null | some (.reference _) =>
    simp [Object.grow, keysDistinct, itemsKeysDistinct, distinct]

private theorem keysDistinct_appendAt {value : Value} (distinct : value.keysDistinct = true) (fields : Object)
    (key : String) (keys : List String) (own : (object fields).keysDistinct = true) :
    (object (Object.appendAt value fields key keys)).keysDistinct = true := by
  induction keys generalizing fields key with
  | nil => exact keysDistinct_update own (keysDistinct_grow distinct _ fun _ => keysDistinct_of_lookup own)
  | cons next keys ih =>
    refine keysDistinct_update own ?_
    split
    case h_1 inner found => exact ih inner next (keysDistinct_of_lookup own found)
    case h_2 => exact ih [] next rfl

end Value

namespace Entry

/-- No value that the entry brings in has two fields of one key. -/
def keysDistinct : Entry → Bool
  | .assign _ value | .append _ value => value.keysDistinct
  | .included fields => (Value.object fields).keysDistinct

private theorem keysDistinct_apply {fields : Object} {entry : Entry}
    (own : (Value.object fields).keysDistinct = true)
    (distinct : entry.keysDistinct = true) : (Value.object (apply fields entry)).keysDistinct = true := by
  cases entry with
  | assign path value =>
    have distinct : value.keysDistinct = true := distinct
    have single : Value.fieldsKeysDistinct [(path.first, Object.nest path.rest value)] = true := by
      simp [Value.fieldsKeysDistinct, Value.keysDistinct_nest, distinct]
    exact Value.keysDistinct_merge fields _ own single
  | append path value => exact Value.keysDistinct_appendAt distinct fields path.first path.rest own
  | included incoming => exact Value.keysDistinct_merge fields incoming own (Bool.and_eq_true_iff.mp distinct).2

/-- No object that is built has two fields of one key. -/
theorem keysDistinct_build {entries : List Entry} (distinct : ∀ entry ∈ entries, entry.keysDistinct = true) :
    (Value.object (build entries)).keysDistinct = true := by
  have folded : ∀ fields : Object, (Value.object fields).keysDistinct = true →
      (Value.object (entries.foldl apply fields)).keysDistinct = true := by
    intro fields own
    induction entries generalizing fields with
    | nil => exact own
    | cons entry entries ih =>
      obtain ⟨first, others⟩ := List.forall_mem_cons.mp distinct
      exact ih others _ (keysDistinct_apply own first)
  exact folded [] rfl

/-- The entry meets in what is built so far what it meets in that merged into a base. Where it has
an object, as the base does, nothing else was put between; and where it adds an element, the base
has no part in what it finds. -/
structure Blends (base built : Object) (entry : Entry) : Prop where
  free : Value.Unobstructed (.object base) (.object built) (.object (apply [] entry))
  alone : ∀ path value, entry = .append path value →
    (Value.object (base.merge built)).lookup path.toList = (Value.object built).lookup path.toList

theorem build_append (entries others : List Entry) : build (entries ++ others) = others.foldl apply (build entries) :=
  List.foldl_append

/-- Each of the entries blends with what those before it have built. -/
def Blend (base : Object) (entries : List Entry) : Prop :=
  ∀ before entry after, entries = before ++ entry :: after → entry.Blends base (build before)

end Entry

namespace Object

open Value (Unobstructed)

/-- The object that is there, or an empty one. -/
def within : Option Value → Object
  | some (.object inner) => inner
  | _ => []

theorem lookup_within (old : Option Value) (key : String) (keys : List String) :
    (Value.object (within old)).lookup (key :: keys) = old.bind (·.lookup (key :: keys)) := by
  match old with
  | some (.object inner) => rfl
  | none | some (.array _) | some (.text _) | some .null | some (.reference _) | some (.concat _) => rfl

private theorem keysDistinct_within {fields : Object} (own : (Value.object fields).keysDistinct = true)
    (key : String) :
    (Value.object (within (fields.lookup key))).keysDistinct = true := by
  unfold within
  split
  case h_1 inner found => exact Value.keysDistinct_of_lookup own found
  case h_2 => rfl

private theorem unobstructed_within {base built incoming : Object} {key : String} {first last : Value}
    (free : Unobstructed (.object base) (.object built) (.object incoming))
    (under : base.lookup key = some first) (above : incoming.lookup key = some last) :
    Unobstructed first (.object (within (built.lookup key))) last := by
  intro path value low high found
  cases path with
  | nil =>
    cases found
    rfl
  | cons other path =>
    rw [lookup_within] at found
    obtain ⟨between, inside, found⟩ := Option.bind_eq_some_iff.mp found
    exact free.below under inside above _ value low high found

theorem isObject_grow (value : Value) (old : Option Value) : (grow value old).isObject = false := by
  match old with
  | none | some (.array _) | some (.object _) | some (.text _) | some .null | some (.reference _)
  | some (.concat _) => rfl

theorem appendAt_cons (value : Value) (fields : Object) (key next : String) (keys : List String) :
    appendAt value fields key (next :: keys) =
      update fields key fun old => .object (appendAt value (within old) next keys) := by
  refine update_congr ?_
  match fields.lookup key with
  | some (.object inner) => rfl
  | none | some (.array _) | some (.text _) | some .null | some (.reference _) | some (.concat _) => rfl

private theorem within_stack {old mid : Option Value} (none : ∀ base, old ≠ some (.object base)) :
    within (stack old mid) = within mid := by
  cases mid with
  | some between => rw [stack, overlay_over_none none]
  | none =>
    match old with
    | some (.object base) => exact absurd rfl (none base)
    | .none | some (.array _) | some (.text _) | some .null | some (.reference _) | some (.concat _) => rfl

/-- An element is added to what is merged in, or to what comes of it, if the base has no part in
the array. -/
private theorem merge_appendAt (value : Value) (base built : Object) (key : String) (keys : List String)
    (own : (Value.object built).keysDistinct = true)
    (free : Unobstructed (.object base) (.object built) (.object (appendAt value [] key keys)))
    (alone : (Value.object (base.merge built)).lookup (key :: keys) =
      (Value.object built).lookup (key :: keys)) :
    merge base (appendAt value built key keys) = appendAt value (merge base built) key keys := by
  have nodup := (Value.keysDistinct_object own).1
  induction keys generalizing base built key with
  | nil =>
    refine merge_update nodup ?_
    rw [Value.lookup_singleton, Value.lookup_singleton] at alone
    rw [alone, overlay_of_not_object (isObject_grow value _)]
  | cons next keys ih =>
    rw [appendAt_cons, appendAt_cons]
    refine merge_update nodup ?_
    rw [lookup_merge_eq_stack nodup]
    by_cases under : ∃ inner, base.lookup key = some (.object inner)
    case neg =>
      have none : ∀ inner, base.lookup key ≠ some (.object inner) := fun inner same => under ⟨inner, same⟩
      rw [overlay_over_none none, within_stack none]
    obtain ⟨inner, under⟩ := under
    have above : (appendAt value [] key (next :: keys)).lookup key = some (.object (appendAt value [] next keys)) :=
      List.lookup_cons_self
    have meets : stack (some (.object inner)) (built.lookup key) =
        some (.object (merge inner (within (built.lookup key)))) := by
      cases inside : built.lookup key with
      | none => simp [stack, within, merge]
      | some between =>
        have object := free.below under inside above [] between ⟨inner, rfl⟩ ⟨_, rfl⟩ rfl
        cases between <;> first | rfl | cases object
    have below : Value.lookup (.object (merge inner (within (built.lookup key)))) (next :: keys) =
        Value.lookup (.object (within (built.lookup key))) (next :: keys) := by
      rw [lookup_within]
      simpa [Value.lookup_cons, lookup_merge_eq_stack nodup, under, meets] using alone
    rw [under, meets]
    refine congrArg Value.object (ih inner (within (built.lookup key)) next ?_ ?_ below ?_)
    · exact keysDistinct_within own key
    · exact unobstructed_within free under above
    · exact (Value.keysDistinct_object (keysDistinct_within own key)).1

/-- Merging is assigning field by field. -/
private theorem merge_eq_foldl (base incoming : Object) :
    merge base incoming = incoming.entries.foldl Entry.apply base := by
  induction incoming generalizing base with
  | nil => simp [merge, entries]
  | cons field rest ih =>
    obtain ⟨key, value⟩ := field
    rw [merge, ih]
    rfl

theorem merge_nil_left {incoming : Object} (distinct : (keys incoming).Nodup) : merge [] incoming = incoming := by
  rw [merge_eq_foldl]
  exact build_entries distinct

end Object

namespace Entry

variable {base built : Object} {entry : Entry}

private theorem merge_apply (own : (Value.object built).keysDistinct = true)
    (distinct : entry.keysDistinct = true)
    (blends : entry.Blends base built) : apply (base.merge built) entry = base.merge (apply built entry) := by
  cases entry with
  | assign path value =>
    have single : (Value.object [(path.first, Object.nest path.rest value)]).keysDistinct = true := by
      have distinct : value.keysDistinct = true := distinct
      simp [Value.keysDistinct, Value.fieldsKeysDistinct, Value.keysDistinct_nest, Object.keys, distinct]
    refine Object.merge_merge base built _ own single ?_
    have made : apply [] (.assign path value) = [(path.first, Object.nest path.rest value)] := by
      simp [apply, Object.set, Object.mergeField, Object.merge, Object.update, Object.overlay_none]
    exact made ▸ blends.free
  | append path value =>
    exact (Object.merge_appendAt value base built path.first path.rest own blends.free
      (blends.alone path value rfl)).symm
  | included incoming =>
    have distinct : (Value.object incoming).keysDistinct = true := distinct
    have made : apply [] (.included incoming) = incoming :=
      Object.merge_nil_left (Value.keysDistinct_object distinct).1
    exact Object.merge_merge base built incoming own distinct (made ▸ blends.free)

/-- Entries that blend with a base do to it, one after the other, what the object does that they build. -/
theorem foldl_apply_eq_merge {entries : List Entry} (distinct : ∀ entry ∈ entries, entry.keysDistinct = true)
    (blend : Blend base entries) : entries.foldl apply base = base.merge (build entries) := by
  induction entries using List.reverseRecOn with
  | nil => simp [build, Object.merge]
  | append_singleton front last ih =>
    obtain ⟨others, own⟩ := List.forall_mem_append.mp distinct
    have before : Blend base front := fun first entry after same =>
      blend first entry (after ++ [last]) (by simp [same])
    have folded : build (front ++ [last]) = apply (build front) last := List.foldl_append
    rw [List.foldl_append, ih others before, folded]
    exact merge_apply (keysDistinct_build others) (own last List.mem_cons_self) (blend front last [] rfl)

/-- Entries of keys that the base has not got blend with it. -/
theorem Blend.of_apart {entries : List Entry} (distinct : ∀ entry ∈ entries, entry.keysDistinct = true)
    (apart : ∀ entry ∈ entries, ∀ key ∈ Object.keys (apply [] entry), base.lookup key = none) :
    Blend base entries := by
  rintro before entry after rfl
  have apart := apart entry (by simp)
  have own := keysDistinct_build fun entry member => distinct entry (List.mem_append_left _ member)
  refine ⟨fun path between low high found => ?_, ?_⟩
  · cases path with
    | nil =>
      cases found
      rfl
    | cons key path =>
      obtain ⟨_, low⟩ := low
      obtain ⟨_, high⟩ := high
      rw [Value.lookup_cons] at low high
      by_cases present : key ∈ Object.keys (apply [] entry)
      · rw [apart key present] at low
        cases low
      · rw [Object.lookup_eq_none_of_notMem present] at high
        cases high
  · rintro path value rfl
    have absent : base.lookup path.first = none := by
      refine apart path.first ?_
      cases rest : path.rest <;> simp [apply, Object.append, Object.appendAt, Object.update, Object.keys, rest]
    rw [KeyPath.toList, Value.lookup_cons, Value.lookup_cons,
      Object.lookup_merge (Value.keysDistinct_object own).1, absent]
    cases (build before).lookup path.first <;> simp [Object.overlay_none]

end Entry
end Hocon
