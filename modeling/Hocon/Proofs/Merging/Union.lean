import Hocon.Proofs.Merging

namespace Hocon

namespace Value

/-- Before its end the path meets a value that is no object. -/
def Bars (value : Value) (path : List String) : Prop :=
  ∃ front met, front <+: path ∧ front ≠ path ∧ value.lookup front = some met ∧ met.isObject = false

theorem bars_cons {fields : Object} {key : String} {path : List String} :
    (object fields).Bars (key :: path) ↔ ∃ value, fields.lookup key = some value ∧ value.Bars path := by
  constructor
  · rintro ⟨front, met, before, proper, found, plain⟩
    cases front with
    | nil =>
      cases found
      cases plain
    | cons first front =>
      obtain ⟨rfl, further⟩ := List.cons_prefix_cons.mp before
      rw [lookup_cons] at found
      obtain ⟨value, there, found⟩ := Option.bind_eq_some_iff.mp found
      exact ⟨value, there, front, met, further, fun same => proper (congrArg (first :: ·) same), found, plain⟩
  · rintro ⟨value, there, front, met, before, proper, found, plain⟩
    have longer : key :: front <+: key :: path := List.cons_prefix_cons.mpr ⟨rfl, before⟩
    refine ⟨key :: front, met, longer, fun same => proper (List.cons.inj same).2, ?_, plain⟩
    rw [lookup_cons_of_lookup there, found]

theorem bars_of_not_object {value : Value} (plain : value.isObject = false) (key : String) (path : List String) :
    value.Bars (key :: path) :=
  ⟨[], value, List.nil_prefix, nofun, rfl, plain⟩

private theorem keysDistinct_lookup {value found : Value} {path : List String}
    (distinct : value.keysDistinct = true)
    (there : value.lookup path = some found) : found.keysDistinct = true := by
  induction path generalizing value with
  | nil =>
    cases there
    exact distinct
  | cons key path ih =>
    cases value with
    | array | text | null | reference | concat => cases there
    | object fields =>
      rw [lookup_cons] at there
      obtain ⟨next, inside, there⟩ := Option.bind_eq_some_iff.mp there
      exact ih (keysDistinct_of_lookup distinct inside) there

end Value

namespace Object

open Value (Bars)

theorem overlay_object {fields : Object} (distinct : (keys fields).Nodup) (old : Option Value) :
    overlay old (.object fields) = .object (merge (within old) fields) := by
  match old with
  | some (.object base) => rfl
  | none | some (.array _) | some (.text _) | some .null | some (.reference _) | some (.concat _) =>
    exact congrArg Value.object (merge_nil_left distinct).symm

/-- Where something comes in at a path, it is laid over what was there. -/
theorem lookup_overlay_of_some (old : Option Value) {value found : Value} {path : List String}
    (distinct : value.keysDistinct = true) (comes : value.lookup path = some found) :
    (overlay old value).lookup path = some (overlay (old.bind (·.lookup path)) found) := by
  induction path generalizing old value with
  | nil =>
    cases comes
    cases old <;> rfl
  | cons key path ih =>
    cases value with
    | array | text | null | reference | concat => cases comes
    | object fields =>
      rw [Value.lookup_cons] at comes
      obtain ⟨next, there, comes⟩ := Option.bind_eq_some_iff.mp comes
      have further (old : Option Value) := ih old (Value.keysDistinct_of_lookup distinct there) comes
      have nodup := (Value.keysDistinct_object distinct).1
      rw [overlay_object nodup, Value.lookup_cons, lookup_merge_eq_stack nodup, there, stack, Option.bind_some,
        further, ← Value.lookup_cons, lookup_within]

/-- Where nothing comes in at a path, what was there stays, as long as the way to it does. -/
theorem lookup_overlay_of_none (old : Option Value) {value : Value} {path : List String}
    (distinct : value.keysDistinct = true) (comes : value.lookup path = none) :
    (value.Bars path → (overlay old value).lookup path = none) ∧
      (¬value.Bars path → (overlay old value).lookup path = old.bind (·.lookup path)) := by
  induction path generalizing old value with
  | nil => cases comes
  | cons key path ih =>
    cases value with
    | array | text | null | reference | concat =>
      refine ⟨fun _ => rfl, fun free => absurd (Value.bars_of_not_object rfl key path) free⟩
    | object fields =>
      have nodup := (Value.keysDistinct_object distinct).1
      rw [overlay_object nodup, Value.lookup_cons, lookup_merge_eq_stack nodup, ← lookup_within, Value.lookup_cons,
        Value.bars_cons]
      rw [Value.lookup_cons] at comes
      cases there : fields.lookup key with
      | none => exact ⟨nofun, fun _ => rfl⟩
      | some next =>
        rw [there] at comes
        have further := ih ((within old).lookup key) (Value.keysDistinct_of_lookup distinct there) comes
        simpa [stack] using further

/-- The keys that were there keep their order, and those that are new come behind them in theirs. -/
private theorem keys_merge {incoming : Object} (distinct : (keys incoming).Nodup) (base : Object) :
    keys (merge base incoming) = keys base ++ (keys incoming).filter (· ∉ keys base) := by
  induction incoming generalizing base with
  | nil => simp [merge, keys]
  | cons field rest ih =>
    obtain ⟨key, value⟩ := field
    obtain ⟨fresh, distinct⟩ := List.nodup_cons.mp distinct
    have keys_cons : keys ((key, value) :: rest) = key :: keys rest := rfl
    rw [merge, ih distinct, keys_update, keys_cons]
    by_cases member : key ∈ keys base
    · simp [member]
    · have others : ∀ other ∈ keys rest, (other ∉ keys base ++ [key]) ↔ other ∉ keys base := by
        intro other found
        have apart : other ≠ key := by
          rintro rfl
          exact fresh found
        simp [apart]
      have kept : (keys rest).filter (· ∉ keys base ++ [key]) = (keys rest).filter (· ∉ keys base) :=
        List.filter_congr fun other found => by simp only [others other found]
      rw [if_neg member, kept]
      simp [member]

/-- A merge is the union of both objects path by path, in which what comes in wins: what is no
object as it is, an object merged into the one that was there, and elsewhere what was there, as far
as it can still be reached. -/
theorem merge_is_union (base incoming : Object) (distinct : (Value.object incoming).keysDistinct = true) :
    (∀ path value, (Value.object incoming).lookup path = some value → value.isObject = false →
      (Value.object (merge base incoming)).lookup path = some value) ∧
    (∀ path fields, (Value.object incoming).lookup path = some (.object fields) →
      (Value.object (merge base incoming)).lookup path =
        some (.object (merge (within ((Value.object base).lookup path)) fields))) ∧
    (∀ path, (Value.object incoming).lookup path = none →
      ((Value.object incoming).Bars path → (Value.object (merge base incoming)).lookup path = none) ∧
      (¬(Value.object incoming).Bars path →
        (Value.object (merge base incoming)).lookup path = (Value.object base).lookup path)) ∧
    ∀ path fields others, (Value.object base).lookup path = some (.object fields) →
      (Value.object incoming).lookup path = some (.object others) →
      ∃ joined, (Value.object (merge base incoming)).lookup path = some (.object joined) ∧
        keys joined = keys fields ++ (keys others).filter (· ∉ keys fields) := by
  have laid : Value.object (merge base incoming) = overlay (some (.object base)) (.object incoming) := rfl
  have inner {path : List String} {fields : Object}
      (comes : (Value.object incoming).lookup path = some (.object fields)) : (keys fields).Nodup :=
    (Value.keysDistinct_object (Value.keysDistinct_lookup distinct comes)).1
  have objects {path : List String} {fields : Object}
      (comes : (Value.object incoming).lookup path = some (.object fields)) :
      (Value.object (merge base incoming)).lookup path =
        some (.object (merge (within ((Value.object base).lookup path)) fields)) := by
    rw [laid, lookup_overlay_of_some _ distinct comes, Option.bind_some, overlay_object (inner comes)]
  refine ⟨fun path value comes plain => ?_, fun path fields comes => objects comes, fun path comes => ?_,
    fun path fields others stood comes => ⟨_, objects comes, ?_⟩⟩
  · rw [laid, lookup_overlay_of_some _ distinct comes, overlay_of_not_object plain]
  · exact lookup_overlay_of_none (some (.object base)) distinct comes
  · rw [stood, within, keys_merge (inner comes)]

/-- An object over an object, and over a text; a text over an object. -/
theorem merge_is_union_layered :
    let base : Object := [("a", .object [("x", .text "1")]), ("b", .text "2"), ("c", .object [("y", .null)])]
    let incoming : Object := [("d", .null), ("c", .text "3"), ("a", .object [("z", .object [("w", .null)])])]
    (Value.object incoming).keysDistinct = true ∧
      (Value.object (merge base incoming)).lookup ["c"] = some (.text "3") ∧
      (Value.object (merge base incoming)).lookup ["a", "z"] = some (.object [("w", .null)]) ∧
      (Value.object (merge base incoming)).lookup ["c", "y"] = none ∧
      (Value.object (merge base incoming)).lookup ["a", "x"] = some (.text "1") ∧
      ∃ joined, (Value.object (merge base incoming)).lookup ["a"] = some (.object joined) ∧ keys joined = ["x", "z"] := by
  intro base incoming
  have distinct : (Value.object incoming).keysDistinct = true := by decide
  obtain ⟨texts, objects, elsewhere, shared⟩ := merge_is_union base incoming distinct
  have barred : (Value.object incoming).Bars ["c", "y"] := ⟨["c"], .text "3", by decide, by decide, rfl, rfl⟩
  have free : ¬(Value.object incoming).Bars ["a", "x"] := by
    rintro ⟨front, met, ⟨behind, whole⟩, proper, found, plain⟩
    match front with
    | [] =>
      cases found
      cases plain
    | [_] =>
      cases whole
      cases found
      cases plain
    | [_, _] =>
      cases whole
      exact proper rfl
    | _ :: _ :: _ :: _ => cases whole
  exact ⟨distinct, texts ["c"] _ rfl rfl, objects ["a", "z"] _ rfl, (elsewhere ["c", "y"] rfl).1 barred,
    (elsewhere ["a", "x"] rfl).2 free, shared ["a"] _ _ rfl rfl⟩

end Object
end Hocon
