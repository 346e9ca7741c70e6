import Hocon.Proofs.Include.Inlining
import Hocon.Proofs.Include.Linking
import Hocon.Proofs.Merging.Grouping
import Hocon.Proofs.Resolution.Findings
import Hocon.Proofs.Restyling
import Mathlib.Data.List.Nodup

/-! Elements added one by one. Where an array is known they are put behind its own while a document
is read; where it is a reference, or any other value that waits, a concatenation grows around it,
and resolving folds that back to one array. Either way they stand behind what was there, in order. -/
namespace Hocon

namespace Object

/-- What stands at a path after so many elements are added there. -/
def growAll (old : Option Value) (values : List Value) : Option Value :=
  values.foldl (fun old value => some (grow value old)) old

private theorem growAll_append_singleton (old : Option Value) (values : List Value) (value : Value) :
    growAll old (values ++ [value]) = some (grow value (growAll old values)) := List.foldl_concat ..

private theorem growAll_isSome (old : Option Value) {values : List Value} (some : values ≠ []) :
    (growAll old values).isSome := by
  rw [← List.dropLast_append_getLast some, growAll_append_singleton]
  rfl

private theorem not_object_of_growAll {old : Option Value} {values : List Value} (some : values ≠ [])
    {value : Value}
    (grown : growAll old values = .some value) : value.isObject = false := by
  rw [← List.dropLast_append_getLast some, growAll_append_singleton] at grown
  cases grown
  exact isObject_grow _ _

end Object

namespace Value

/-- The value has nothing at the path, and only objects on the way. -/
def Misses (value : Value) (path : List String) : Prop := value.lookup path = none ∧ ¬ value.Bars path

private theorem Misses.ne_nil {value : Value} {path : List String} (misses : value.Misses path) :
    path ≠ [] := by
  rintro rfl
  cases misses.1

private theorem misses_cons {fields : Object} {key : String} {path : List String} :
    (object fields).Misses (key :: path) ↔ ∀ value, fields.lookup key = some value → value.Misses path := by
  rw [Misses, lookup_cons, bars_cons]
  cases fields.lookup key with
  | none => simp
  | some value => simp [Misses]

private theorem Misses.isObject {value : Value} {path : List String} (misses : value.Misses path) :
    value.isObject = true := by
  obtain ⟨key, rest, rfl⟩ := List.exists_cons_of_ne_nil misses.ne_nil
  by_contra plain
  exact misses.2 (bars_of_not_object (by simpa using plain) key rest)

end Value

namespace Object

private theorem lookup_nest_append (keys path : List String) (value : Value) :
    (nest keys value).lookup (keys ++ path) = value.lookup path := by
  induction keys with
  | nil => rfl
  | cons key keys ih =>
    have step : nest (key :: keys) value = .object [(key, nest keys value)] := rfl
    rw [List.cons_append, step, Value.lookup_cons, List.lookup_cons_self, Option.bind_some, ih]

private theorem lookup_nest (keys : List String) (value : Value) :
    (nest keys value).lookup keys = some value := by
  simpa [Value.lookup] using lookup_nest_append keys [] value

private theorem nest_misses {keys path : List String} (value : Value) (apart : ¬ keys <+: path)
    (beside : ¬ path <+: keys) :
    (nest keys value).Misses path := by
  induction keys generalizing path with
  | nil => exact absurd List.nil_prefix apart
  | cons key keys ih =>
    have step : nest (key :: keys) value = .object [(key, nest keys value)] := rfl
    cases path with
    | nil => exact absurd List.nil_prefix beside
    | cons name path =>
      rw [step, Value.misses_cons]
      intro inner found
      by_cases same : name = key
      · subst same
        rw [List.lookup_cons_self] at found
        cases found
        exact ih (by simpa using apart) (by simpa using beside)
      · have other : (name == key) = false := by simpa using same
        simp [List.lookup_cons, other] at found

private theorem appendAt_nil (value : Value) (key : String) (rest : List String) :
    Value.object (appendAt value [] key rest) = nest (key :: rest) (.array [value]) := by
  induction rest generalizing key with
  | nil => rfl
  | cons next rest ih =>
    rw [appendAt_cons]
    exact congrArg (fun value => Value.object [(key, value)]) (ih next)

theorem lookup_appendAt_self (value : Value) (fields : Object) (key : String) (rest : List String) :
    (Value.object (appendAt value fields key rest)).lookup (key :: rest) =
      some (grow value ((Value.object fields).lookup (key :: rest))) := by
  induction rest generalizing fields key with
  | nil => rw [Value.lookup_singleton, Value.lookup_singleton, appendAt, lookup_update_self]
  | cons next rest ih =>
    rw [appendAt_cons, Value.lookup_cons, lookup_update_self, Option.bind_some, ih, lookup_within,
      Value.lookup_cons]

/-- An element that is added elsewhere changes nothing at a path. -/
theorem lookup_appendAt_of_misses {value : Value} {key : String} {rest path : List String}
    (misses : (Value.object (appendAt value [] key rest)).Misses path) (fields : Object) :
    (Value.object (appendAt value fields key rest)).lookup path = (Value.object fields).lookup path := by
  induction rest generalizing fields key path with
  | nil =>
    obtain ⟨name, path, rfl⟩ := List.exists_cons_of_ne_nil misses.ne_nil
    rw [Value.lookup_cons, Value.lookup_cons]
    by_cases same : name = key
    · subst same
      have below := Value.misses_cons.mp misses _ (lookup_update_self _ _ _)
      exact absurd below.isObject (by rw [isObject_grow]; decide)
    · rw [appendAt, lookup_update_ne _ _ same]
  | cons next rest ih =>
    obtain ⟨name, path, rfl⟩ := List.exists_cons_of_ne_nil misses.ne_nil
    rw [appendAt_cons] at misses ⊢
    rw [Value.lookup_cons, Value.lookup_cons]
    by_cases same : name = key
    · subst same
      have below := Value.misses_cons.mp misses _ (lookup_update_self _ _ _)
      obtain ⟨other, path, rfl⟩ := List.exists_cons_of_ne_nil below.ne_nil
      rw [lookup_update_self, Option.bind_some, ih below, lookup_within]
    · rw [lookup_update_ne _ _ same]

end Object

namespace Entry

/-- The element that the entry adds at this path, if it adds one there. -/
def added? (path : KeyPath) : Entry → Option Value
  | .append other value => if other = path then some value else none
  | .assign .. | .included _ => none

/-- The entry brings nothing to the path, and nothing but objects to the way there. -/
def Apart (path : List String) (entry : Entry) : Prop := (Value.object (apply [] entry)).Misses path

private theorem apply_assign (path : KeyPath) (value : Value) :
    Value.object (apply [] (.assign path value)) = Object.nest path.toList value :=
  congrArg Value.object (Object.build_assign path value)

private theorem apply_assign_eq_overlay (fields : Object) (path : KeyPath) (value : Value) :
    Value.object (apply fields (.assign path value)) =
      Object.overlay (some (.object fields)) (Object.nest path.toList value) := rfl

/-- Entries at paths of which neither begins the other keep apart. -/
theorem apart_of_path {path : List String} {other : KeyPath} {entry : Entry} (value : Value)
    (kind : entry = .assign other value ∨ entry = .append other value)
    (ahead : ¬ other.toList <+: path) (beyond : ¬ path <+: other.toList) : entry.Apart path := by
  rcases kind with rfl | rfl
  · rw [Apart, apply_assign]
    exact Object.nest_misses value ahead beyond
  · rw [Apart, apply, Object.append, Object.appendAt_nil]
    exact Object.nest_misses _ ahead beyond

private theorem lookup_apply_of_apart {path : List String} {entry : Entry}
    (distinct : entry.keysDistinct = true)
    (apart : entry.Apart path) (fields : Object) :
    (Value.object (apply fields entry)).lookup path = (Value.object fields).lookup path := by
  cases entry with
  | assign other value =>
    have own : (Object.nest other.toList value).keysDistinct = true :=
      (Value.keysDistinct_nest other.toList value).trans distinct
    rw [Apart, apply_assign] at apart
    rw [apply_assign_eq_overlay]
    exact (Object.lookup_overlay_of_none _ own apart.1).2 apart.2
  | append other value => exact Object.lookup_appendAt_of_misses apart fields
  | included incoming =>
    rw [Apart, apply, Object.merge_nil_left (Value.keysDistinct_object distinct).1] at apart
    exact (Object.lookup_overlay_of_none (some (.object fields)) distinct apart.1).2 apart.2

private theorem lookup_foldl_apply {path : KeyPath} {entries : List Entry}
    (distinct : ∀ entry ∈ entries, entry.keysDistinct = true)
    (others : ∀ entry ∈ entries, (entry.added? path).isSome ∨ entry.Apart path.toList) (fields : Object) :
    (Value.object (entries.foldl apply fields)).lookup path.toList =
      Object.growAll ((Value.object fields).lookup path.toList) (entries.filterMap (added? path)) := by
  induction entries generalizing fields with
  | nil => rfl
  | cons entry entries ih =>
    obtain ⟨own, distinct⟩ := List.forall_mem_cons.mp distinct
    obtain ⟨kind, others⟩ := List.forall_mem_cons.mp others
    rw [List.foldl_cons, ih distinct others]
    cases added : entry.added? path with
    | some value =>
      cases entry with
      | assign | included => cases added
      | append other inner =>
        simp only [added?, Option.ite_none_right_eq_some, Option.some.injEq] at added
        obtain ⟨rfl, rfl⟩ := added
        have added : (append other inner).added? other = some inner := if_pos rfl
        rw [List.filterMap_cons_some added, apply, Object.append, KeyPath.toList,
          Object.lookup_appendAt_self]
        rfl
    | none =>
      have apart := kind.resolve_left (by simp [added])
      rw [List.filterMap_cons_none added, lookup_apply_of_apart own apart]

/-- The last value that is assigned at a path stands there, unless it is merged into another. -/
private theorem lookup_build_assign (earlier : List Entry) (path : KeyPath) {value : Value}
    (distinct : value.keysDistinct = true) (plain : value.isObject = false) :
    (Value.object (build (earlier ++ [.assign path value]))).lookup path.toList = some value := by
  have own : (Object.nest path.toList value).keysDistinct = true :=
    (Value.keysDistinct_nest path.toList value).trans distinct
  rw [build_append, List.foldl_cons, List.foldl_nil, apply_assign_eq_overlay,
    Object.lookup_overlay_of_some _ own (Object.lookup_nest path.toList value),
    Object.overlay_of_not_object plain]

private theorem lookup_foldl_of_apart {path : List String} {entries : List Entry}
    (distinct : ∀ entry ∈ entries, entry.keysDistinct = true) (apart : ∀ entry ∈ entries, entry.Apart path)
    (fields : Object) :
    (Value.object (entries.foldl apply fields)).lookup path = (Value.object fields).lookup path := by
  induction entries generalizing fields with
  | nil => rfl
  | cons entry entries ih =>
    obtain ⟨own, distinct⟩ := List.forall_mem_cons.mp distinct
    obtain ⟨first, apart⟩ := List.forall_mem_cons.mp apart
    rw [List.foldl_cons, ih distinct apart, lookup_apply_of_apart own first]

/-- Some entries are those between braces, at any depth, at the end of a path. Nothing that follows
these braces comes near what is looked for in them. -/
inductive Encloses (target : List String) : List Entry → List String → List Entry → Prop where
  | here {entries : List Entry} : Encloses target entries [] entries
  | braces {before after inner entries : List Entry} {path : KeyPath} {rest : List String}
      (inside : Encloses target inner rest entries) (own : ∀ entry ∈ inner, entry.keysDistinct = true)
      (apart : ∀ entry ∈ after, entry.Apart (path.toList ++ (rest ++ target))) :
      Encloses target (before ++ .assign path (.object (build inner)) :: after) (path.toList ++ rest) entries

namespace Encloses

variable {target outer : List String} {whole entries : List Entry}

private theorem keysDistinct (encloses : Encloses target whole outer entries)
    (own : ∀ entry ∈ whole, entry.keysDistinct = true) : ∀ entry ∈ entries, entry.keysDistinct = true := by
  induction encloses with
  | here => exact own
  | braces inside inner apart ih => exact ih inner

/-- What stands in the braces and is no object stands in the whole. -/
private theorem lookup (encloses : Encloses target whole outer entries)
    (own : ∀ entry ∈ whole, entry.keysDistinct = true) {found : Value}
    (there : (Value.object (build entries)).lookup target = some found) (plain : found.isObject = false) :
    (Value.object (build whole)).lookup (outer ++ target) = some found := by
  induction encloses with
  | here => exact there
  | @braces before after inner entries path rest inside distinct apart ih =>
    have below := ih distinct there
    have nested : (Object.nest path.toList (.object (build inner))).keysDistinct = true :=
      (Value.keysDistinct_nest path.toList _).trans (keysDistinct_build distinct)
    have further : ∀ entry ∈ after, entry.keysDistinct = true :=
      fun entry member => own entry (List.mem_append_right _ (.tail _ member))
    have comes : (Object.nest path.toList (.object (build inner))).lookup (path.toList ++ (rest ++ target)) =
        some found := by
      rw [Object.lookup_nest_append, below]
    rw [List.append_assoc, build_append, List.foldl_cons, lookup_foldl_of_apart further apart,
      apply_assign_eq_overlay, Object.lookup_overlay_of_some _ nested comes, Object.overlay_of_not_object plain]

end Encloses

end Entry

namespace Value

variable {meaning : Meaning}

private theorem evaluateItems_append (items others : List Value) :
    evaluateItems meaning (items ++ others) =
      evaluateItems meaning items >>= fun lefts => evaluateItems meaning others >>= fun more =>
        .ok (lefts ++ more) := by
  induction items with
  | nil =>
    rw [List.nil_append, evaluateItems]
    cases evaluateItems meaning others <;> rfl
  | cons item items ih =>
    rw [List.cons_append, evaluateItems, evaluateItems, ih]
    cases item.evaluate meaning with
    | error fault => rfl
    | ok left =>
      cases evaluateItems meaning items with
      | error fault => rfl
      | ok lefts => cases evaluateItems meaning others <;> rfl

/-- The value under a meaning of what may be missing. -/
def evaluateOption (meaning : Meaning) : Option Value → Except Fault (Option Value)
  | some value => value.evaluate meaning
  | none => .ok none

/-- The elements of an array; nothing has none. -/
def elements? : Option Value → Option (List Value)
  | some (.array items) => some items
  | none => some []
  | some _ => none

private theorem eq_array_of_elements? {left : Option Value} {held : List Value}
    (array : elements? left = some held)
    (present : left.isSome) : left = some (.array held) := by
  unfold elements? at array
  split at array
  · rw [Option.some.inj array]
  · cases present
  · cases array

private theorem joinResolved_array {left joined : Option Value} {held more : List Value}
    (array : elements? left = some held)
    (done : joinResolved [left, some (.array more)] = .ok joined) : joined = some (.array (held ++ more)) := by
  unfold elements? at array
  split at array <;> cases array <;> cases done <;> rfl

private theorem evaluateItems_singleton {value : Value} {parts : List (Option Value)}
    (made : evaluateItems meaning [value] = .ok parts) :
    ∃ added, value.evaluate meaning = .ok added ∧ parts = [added] := by
  obtain ⟨added, first, made⟩ := ok_of_bind made
  cases made
  exact ⟨added, first, rfl⟩

/-- What is left of a place evaluates as what stood there does, with an element behind it if that
left an array or nothing. -/
def Behind (meaning : Meaning) (old : Option Value) (value : Value) (left : Option Value) : Prop :=
  ∃ before added, evaluateOption meaning old = .ok before ∧ value.evaluate meaning = .ok added ∧
    ∀ held, elements? before = some held → left = some (.array (held ++ added.toList))

variable {value : Value} {left : Option Value}

/-- An element that waits beside a value is the only one of an array of its own. -/
private theorem behind_of_concat {other : Value}
    (done : (concat [other, .array [value]]).evaluate meaning = .ok left) :
    Behind meaning (some other) value left := by
  obtain ⟨parts, made, joined⟩ := ok_of_bind done
  obtain ⟨before, first, made⟩ := ok_of_bind made
  obtain ⟨rest, behind, same⟩ := ok_of_bind made
  obtain ⟨second, array, behind⟩ := ok_of_bind behind
  obtain ⟨inner, alone, array⟩ := ok_of_bind array
  obtain ⟨added, own, rfl⟩ := evaluateItems_singleton alone
  cases array
  cases behind
  cases same
  refine ⟨before, added, first, own, fun held array => ?_⟩
  rw [joinResolved_array array joined]
  cases added <;> rfl

private theorem behind_of_array {items : List Value}
    (done : (array (items ++ [value])).evaluate meaning = .ok left) :
    Behind meaning (some (.array items)) value left := by
  obtain ⟨parts, made, same⟩ := ok_of_bind done
  cases same
  rw [evaluateItems_append] at made
  obtain ⟨lefts, inner, made⟩ := ok_of_bind made
  obtain ⟨more, alone, made⟩ := ok_of_bind made
  obtain ⟨added, own, rfl⟩ := evaluateItems_singleton alone
  cases made
  have before : (array items).evaluate meaning = .ok (some (.array (lefts.filterMap id))) := by
    rw [evaluate, inner]
    rfl
  refine ⟨_, added, before, own, fun held array => ?_⟩
  cases array
  cases added <;> simp

private theorem behind_of_grow {old : Option Value}
    (done : (Object.grow value old).evaluate meaning = .ok left) :
    Behind meaning old value left := by
  match old with
  | some (.array items) => exact behind_of_array done
  | none =>
    obtain ⟨parts, alone, same⟩ := ok_of_bind done
    obtain ⟨added, own, rfl⟩ := evaluateItems_singleton alone
    cases same
    refine ⟨none, added, rfl, own, fun held array => ?_⟩
    cases array
    cases added <;> rfl
  | some (.object _) | some (.text _) | some .null | some (.reference _) | some (.concat _) =>
    exact behind_of_concat done

private theorem evaluate_growAll {old : Option Value} {values : List Value}
    (done : evaluateOption meaning (Object.growAll old values) = .ok left) :
    ∃ before lefts, evaluateOption meaning old = .ok before ∧ evaluateItems meaning values = .ok lefts ∧
      ∀ held, elements? before = some held → elements? left = some (held ++ lefts.filterMap id) ∧
        (values ≠ [] → left.isSome) := by
  induction values using List.reverseRecOn generalizing left with
  | nil => exact ⟨left, [], done, rfl, fun held array => ⟨by simpa using array, fun some => absurd rfl some⟩⟩
  | append_singleton values value ih =>
    rw [Object.growAll_append_singleton] at done
    obtain ⟨middle, added, grown, made, final⟩ := behind_of_grow done
    obtain ⟨before, lefts, first, others, inner⟩ := ih grown
    refine ⟨before, lefts ++ [added], first, ?_, fun held array => ?_⟩
    · rw [evaluateItems_append, others, evaluateItems, made]
      rfl
    · obtain rfl := final _ (inner held array).1
      refine ⟨?_, fun _ => rfl⟩
      cases added <;> simp [elements?]

end Value

private theorem Linked.consistent {root : Root} {first next : Nat}
    (linked : Linked root.value.references root.references first next) : root.Consistent := by
  have listed : root.mentioned ⊆ root.references := by
    intro reference member
    exact (List.mem_append.mp member).elim id fun live => linked.kept.subset live
  intro one member other another same
  exact List.inj_on_of_nodup_map linked.distinct (listed member) (listed another) same

/-- Reading the text makes these entries, one for each of its fields and directives. -/
def Enters (includer : Includer) (text : String) (session : Session) (entries : List Entry) : Prop :=
  ∃ (fields : Grammar.Fields) (made : Grammar.Made (List Entry)) (after : Session),
    fields.Outlines text ∧ fields.run includer session = .ok made after ∧ made.value = entries

variable {includer : Includer} {text : String} {session after : Session} {document : Document}

private theorem Enters.build {entries : List Entry} (enters : Enters includer text session entries)
    (objects : includer.Objects) (distinct : includer.Distinct)
    (parsed : parse includer text session = .ok document after) :
    document.fields = Entry.build entries ∧ ∀ entry ∈ entries, entry.keysDistinct = true := by
  obtain ⟨fields, made, middle, ⟨lexemes, last, read, derives⟩, ran, rfl⟩ := enters
  have whole : parse includer text = fields.document includer := by
    rw [parse, read, ← Stream.document_reads (fun _ => objects) derives]
    rfl
  rw [whole] at parsed
  obtain ⟨again, behind, reran, done⟩ := Run.ok_of_bind parsed
  cases ran.symm.trans reran
  cases done
  exact ⟨rfl, Grammar.Fields.distinct_of_run distinct ran⟩

private theorem Root.resolve_grown {root : Root} {fields : Object} (whole : root.value = .object fields)
    (unique : root.value.keysDistinct = true) (consistent : root.Consistent) {environment : Environment}
    {start : Session} {result : Value} (resolved : ((root.resolve environment).outcome start).1 = .ok result)
    {path : List String} {old : Option Value} {values : List Value} (some : values ≠ [])
    (grown : root.value.lookup path = Object.growAll old values) {first : Option Value} {held : List Value}
    (stood : Value.evaluateOption (.ofTree environment result) old = .ok first)
    (array : Value.elements? first = .some held) :
    ∃ lefts, Value.evaluateItems (.ofTree environment result) values = .ok lefts ∧
      result.lookup path = .some (.array (held ++ lefts.filterMap id)) := by
  obtain ⟨_, meaning, fits, left, evaluated, same⟩ := (resolve_ok_iff consistent).mp resolved
  obtain ⟨tree, rfl⟩ := Value.some_of_evaluate_object (whole ▸ evaluated)
  obtain rfl : result = tree := same
  have solves := (Value.solves_iff unique).mpr ⟨meaning, fits, evaluated⟩
  obtain ⟨value, there⟩ := Option.isSome_iff_exists.mp (Object.growAll_isSome old some)
  have final : Value.evaluateOption (.ofTree environment result) (Object.growAll old values) =
      .ok (result.lookup path) := by
    rw [there]
    exact Value.evaluate_of_lookup unique solves.evaluated (grown.trans there)
  obtain ⟨before, lefts, begun, evaluated, inOrder⟩ := Value.evaluate_growAll final
  cases begun.symm.trans stood
  obtain ⟨elements, present⟩ := inOrder held array
  exact ⟨lefts, evaluated, Value.eq_array_of_elements? elements (present some)⟩

/-- Elements come in order. Where the fields of a document, or those between some braces in it, only
add elements at a path or keep apart from it behind some point, and what stands there at that point
is, in the resulting tree, an array or nothing, the path leads in that tree to the array with the
elements behind it, as far as something is left of them. It makes no difference whether the array
was known when they were added. -/
theorem appended_in_order (objects : includer.Objects) (links : includer.Links) (distinct : includer.Distinct)
    (parsed : parse includer text session = .ok document after) {path : KeyPath} {outer : List String}
    {whole earlier later : List Entry} (enters : Enters includer text session whole)
    (encloses : Entry.Encloses path.toList whole outer (earlier ++ later))
    (others : ∀ entry ∈ later, (entry.added? path).isSome ∨ entry.Apart path.toList)
    (some : later.filterMap (Entry.added? path) ≠ []) {environment : Environment} {start : Session}
    {result : Value} (resolved : ((document.root.resolve environment).outcome start).1 = .ok result)
    {first : Option Value} {held : List Value}
    (stood : Value.evaluateOption (.ofTree environment result)
      ((Value.object (Entry.build earlier)).lookup path.toList) = .ok first)
    (array : Value.elements? first = .some held) :
    ∃ lefts, Value.evaluateItems (.ofTree environment result) (later.filterMap (Entry.added? path)) =
        .ok lefts ∧
      result.lookup (outer ++ path.toList) = .some (.array (held ++ lefts.filterMap id)) := by
  obtain ⟨built, own⟩ := enters.build objects distinct parsed
  have unique : document.root.value.keysDistinct = true := Include.keysDistinct_of_parse objects distinct parsed
  have linked : Linked document.root.value.references document.root.references _ _ :=
    parse_links objects links parsed
  have inner := encloses.keysDistinct own
  have grown : (Value.object (Entry.build (earlier ++ later))).lookup path.toList = Object.growAll
      ((Value.object (Entry.build earlier)).lookup path.toList) (later.filterMap (Entry.added? path)) := by
    rw [Entry.build_append]
    exact Entry.lookup_foldl_apply (fun entry member => inner entry (List.mem_append_right _ member)) others _
  obtain ⟨value, there⟩ := Option.isSome_iff_exists.mp (Object.growAll_isSome
    ((Value.object (Entry.build earlier)).lookup path.toList) some)
  have placed : document.root.value.lookup (outer ++ path.toList) = .some value := by
    rw [Document.root, built]
    exact encloses.lookup own (grown.trans there) (Object.not_object_of_growAll some there)
  exact Root.resolve_grown rfl unique linked.consistent resolved some (placed.trans there.symm) stood array

namespace Includer

private theorem silent_links : Includer.silent.Links := by
  intro directive session after root answered
  cases answered
  exact .none _

private theorem silent_distinct : Includer.silent.Distinct := by
  intro directive session after root answered
  cases answered
  rfl

end Includer

deriving instance DecidableEq for Entry

/-- Elements for a reference to an array and, between braces, for an array that is not there yet. -/
def inTurn : String :=
  "base = [x]\nlist = $\x7bbase\x7d\nlist += $\x7b?gone\x7d\n" ++
    "box \x7b a.b += $\x7bbase\x7d, c = 1, a.b += z \x7d\nlist += y\n"

namespace InTurn

/-- What is assigned in front of the elements. -/
def earlier : List Entry :=
  [.assign ⟨"base", []⟩ (.array [.text "x"]), .assign ⟨"list", []⟩ (.reference ⟨0, ["base"], false, ⟨2, 8⟩⟩)]

/-- The entries between the braces. -/
def inner : List Entry :=
  [.append ⟨"a", ["b"]⟩ (.reference ⟨2, ["base"], false, ⟨4, 14⟩⟩), .assign ⟨"c", []⟩ (.text "1"),
    .append ⟨"a", ["b"]⟩ (.text "z")]

def later : List Entry :=
  [.append ⟨"list", []⟩ (.reference ⟨1, ["gone"], true, ⟨3, 9⟩⟩),
    .assign ⟨"box", []⟩ (.object (Entry.build inner)), .append ⟨"list", []⟩ (.text "y")]

def tree : Value :=
  .object [("base", .array [.text "x"]), ("list", .array [.text "x", .text "y"]),
    ("box", .object [("a", .object [("b", .array [.array [.text "x"], .text "z"])]), ("c", .text "1")])]

private theorem enters : Enters .silent inTurn .start (earlier ++ later) := by
  have passage : Passage inTurn := ⟨by decide +kernel, by decide +kernel, by decide +kernel, by decide +kernel⟩
  obtain ⟨lexemes, last, fields, made, after, read, ends, spelled, ran, _⟩ := passage.outline
  have entries : entriesOf inTurn = earlier ++ later := by decide +kernel
  refine ⟨fields, made, after, ⟨lexemes, last, read, .bare spelled ends⟩, ran, ?_⟩
  rw [← entriesOf_of_read read spelled ends ran, entries]

private theorem resolved : ∃ document after, parse .silent inTurn .start = .ok document after ∧
    ((document.root.resolve fun _ => none).outcome .start).1 = .ok tree := by
  have whole : (((parse .silent inTurn).outcome .start).1.toOption.bind fun document =>
      ((document.root.resolve fun _ => none).outcome .start).1.toOption) = some tree := by decide +kernel
  obtain ⟨document, read, resolved⟩ := Option.bind_eq_some_iff.mp whole
  obtain ⟨after, parsed⟩ := Run.ok_of_outcome (ok_of_toOption read)
  exact ⟨document, after, parsed, ok_of_toOption resolved⟩

private theorem encloses :
    Entry.Encloses (KeyPath.toList ⟨"a", ["b"]⟩) (earlier ++ later) ["box"] ([] ++ inner) := by
  have split : earlier ++ later = (earlier ++ later.take 1) ++
      .assign ⟨"box", []⟩ (.object (Entry.build inner)) :: later.drop 2 := rfl
  rw [split]
  refine .braces .here (by decide) fun entry member => ?_
  obtain rfl := List.mem_singleton.mp member
  exact Entry.apart_of_path _ (.inr rfl) (by decide) (by decide)

private theorem apart : ∀ entry ∈ later, (entry.added? ⟨"list", []⟩).isSome ∨ entry.Apart ["list"] := by
  simp only [later, List.forall_mem_cons]
  exact ⟨.inl rfl, .inr (Entry.apart_of_path _ (.inl rfl) (by decide) (by decide)), .inl rfl, nofun⟩

private theorem apart_inner : ∀ entry ∈ inner, (entry.added? ⟨"a", ["b"]⟩).isSome ∨ entry.Apart ["a", "b"] := by
  simp only [inner, List.forall_mem_cons]
  exact ⟨.inl rfl, .inr (Entry.apart_of_path _ (.inl rfl) (by decide) (by decide)), .inl rfl, nofun⟩

end InTurn

/-- An undefined element is left out, and an array that is added is one element. -/
theorem appended_in_turn : ∃ document after,
    parse .silent inTurn .start = .ok document after ∧
    Enters .silent inTurn .start (InTurn.earlier ++ InTurn.later) ∧
    ((document.root.resolve fun _ => none).outcome .start).1 = .ok InTurn.tree ∧
    (∃ lefts, Value.evaluateItems (.ofTree (fun _ => none) InTurn.tree)
        [.reference ⟨1, ["gone"], true, ⟨3, 9⟩⟩, .text "y"] = .ok lefts ∧
      InTurn.tree.lookup ["list"] = some (.array ([.text "x"] ++ lefts.filterMap id))) ∧
    ∃ lefts, Value.evaluateItems (.ofTree (fun _ => none) InTurn.tree)
        [.reference ⟨2, ["base"], false, ⟨4, 14⟩⟩, .text "z"] = .ok lefts ∧
      InTurn.tree.lookup ["box", "a", "b"] = some (.array ([] ++ lefts.filterMap id)) := by
  obtain ⟨document, after, parsed, resolved⟩ := InTurn.resolved
  have standing : (Value.object (Entry.build InTurn.earlier)).lookup ["list"] =
      some (.reference ⟨0, ["base"], false, ⟨2, 8⟩⟩) :=
    Entry.lookup_build_assign (InTurn.earlier.take 1) ⟨"list", []⟩ rfl rfl
  refine ⟨document, after, parsed, InTurn.enters, resolved, ?_, ?_⟩
  · exact appended_in_order Includer.silent_objects Includer.silent_links Includer.silent_distinct parsed
      InTurn.enters .here InTurn.apart (List.cons_ne_nil _ _) resolved (by rw [KeyPath.toList, standing]; rfl) rfl
  · exact appended_in_order Includer.silent_objects Includer.silent_links Includer.silent_distinct parsed
      InTurn.enters InTurn.encloses InTurn.apart_inner (List.cons_ne_nil _ _) resolved rfl rfl

end Hocon
