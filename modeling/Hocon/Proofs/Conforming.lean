import Hocon.Config.Shape
import Hocon.Proofs.Run
import Hocon.Value.Equality
import Mathlib.Data.List.Forall2

namespace Hocon

/-- The fault that a computation ends with. -/
def fault? {ε α : Type} : Except ε α → Option ε
  | .ok _ => none
  | .error fault => some fault

section Sequences

variable {ε α β γ : Type}

@[simp] theorem fault?_ok (result : α) : fault? (.ok result : Except ε α) = none := rfl

@[simp] theorem fault?_error (fault : ε) : fault? (.error fault : Except ε α) = some fault := rfl

private theorem fault?_eq_some_iff {outcome : Except ε α} {fault : ε} :
    fault? outcome = some fault ↔ outcome = .error fault := by
  cases outcome <;> simp

private theorem fault?_map (convert : α → β) (outcome : Except ε α) :
    fault? (outcome.map convert) = fault? outcome := by
  cases outcome <;> rfl

private theorem map_eq_ok_iff {convert : α → β} {outcome : Except ε α} {result : β} :
    outcome.map convert = .ok result ↔ ∃ found, outcome = .ok found ∧ convert found = result := by
  cases outcome with
  | ok found => simp [Except.map]
  | error fault => simp [Except.map]

private theorem mapM_eq_ok_iff {read : α → Except ε β} {items : List α} {results : List β} :
    items.mapM read = .ok results ↔ List.Forall₂ (fun item result => read item = .ok result) items results := by
  induction items generalizing results with
  | nil => cases results <;> simp [pure, Except.pure]
  | cons item items ih =>
    rw [List.mapM_cons]
    constructor
    · intro done
      cases head : read item with
      | error fault => simp [head, bind, Except.bind] at done
      | ok result =>
        cases tail : items.mapM read with
        | error fault => simp [head, tail, bind, Except.bind] at done
        | ok others =>
          simp only [head, tail, bind, Except.bind, pure, Except.pure, Except.ok.injEq] at done
          subst done
          exact .cons head (ih.mp tail)
    · rintro (_ | ⟨head, others⟩)
      simp [head, ih.mpr others, bind, Except.bind, pure, Except.pure]

private theorem fault?_mapM (read : α → Except ε β) (items : List α) :
    fault? (items.mapM read) = items.findSome? fun item => fault? (read item) := by
  induction items with
  | nil => rfl
  | cons item items ih =>
    rw [List.mapM_cons, List.findSome?_cons, ← ih]
    cases head : read item with
    | error fault => rfl
    | ok result => cases items.mapM read <;> rfl

private theorem exists_forall₂_iff {fits : α → β → Prop} {items : List α} :
    (∃ results, List.Forall₂ fits items results) ↔ ∀ item ∈ items, ∃ result, fits item result := by
  induction items with
  | nil => simp
  | cons item items ih =>
    simp only [List.forall_mem_cons, ← ih, List.forall₂_cons_left_iff]
    constructor
    · rintro ⟨_, result, others, head, tail, _⟩
      exact ⟨⟨result, head⟩, others, tail⟩
    · rintro ⟨⟨result, head⟩, others, tail⟩
      exact ⟨_, result, others, head, tail, rfl⟩

private theorem findSome?_flatMap (below : α → List β) (find : β → Option γ) (items : List α) :
    (items.flatMap below).findSome? find = items.findSome? fun item => (below item).findSome? find := by
  induction items with
  | nil => rfl
  | cons item items ih =>
    rw [List.flatMap_cons, List.findSome?_append, ih, List.findSome?_cons]
    cases (below item).findSome? find <;> rfl

end Sequences

namespace Shape

/-- A result has the nesting, the lengths and the order of the value, each scalar being read on its own. -/
def Counterpart : (shape : Shape) → Value → shape.Carrier → Prop
  | .table, value, result => ∃ fields, value = .object fields ∧
      List.Forall₂ (fun field entry => field.1 = entry.1 ∧ readText field.2 = .ok entry.2) fields result
  | .list element, value, results =>
      ∃ items, value = .array items ∧ List.Forall₂ element.Counterpart items results
  | .optional inner, value, result => (value = .null ∧ result = none) ∨
      value ≠ .null ∧ ∃ found, result = some found ∧ inner.Counterpart value found
  | scalar, value, result => scalar.read value = .ok result

/-- A value is such as the shape wants it. -/
def Conforms : Shape → Value → Prop
  | .table, value => ∃ fields, value = .object fields ∧ ∀ field ∈ fields, ∃ content, readText field.2 = .ok content
  | .list element, value => ∃ items, value = .array items ∧ ∀ item ∈ items, element.Conforms item
  | .optional inner, value => value = .null ∨ inner.Conforms value
  | scalar, value => ∃ result, scalar.read value = .ok result

/-- The value and those inside, each with what it is wanted as: a list or table before what it holds,
what it holds from left to right. -/
def visits : Shape → Value → List (Shape × Value)
  | .table, .object fields => (.table, .object fields) :: fields.map fun field => (.text, field.2)
  | .list element, .array items => (.list element, .array items) :: items.flatMap element.visits
  | .optional inner, value => (.optional inner, value) :: if value = .null then [] else inner.visits value
  | shape, value => [(shape, value)]

/-- What is wrong with a value itself, whatever is inside. -/
def offence? : Shape → Value → Option Misfit
  | .table, .object _ | .list _, .array _ | .optional _, _ => none
  | .table, value => some (.notObject value.kind)
  | .list _, value => some (.notArray value.kind)
  | scalar, value => fault? (scalar.read value)

variable {shape : Shape} {value : Value}

private theorem readTable_eq_ok_iff {fields : Object} {entries : List (String × String)} :
    readTable (.object fields) = .ok entries ↔
      List.Forall₂ (fun field entry => field.1 = entry.1 ∧ readText field.2 = .ok entry.2) fields entries := by
  refine mapM_eq_ok_iff.trans ?_
  have each (field : String × Value) (entry : String × String) :
      (do return (field.1, ← readText field.2) : Except Misfit _) = .ok entry ↔
        field.1 = entry.1 ∧ readText field.2 = .ok entry.2 := by
    cases readText field.2 with
    | ok content => simp [bind, Except.bind, pure, Except.pure, Prod.ext_iff]
    | error misfit => simp [bind, Except.bind]
  simp only [each]

private theorem read_optional {inner : Shape} (present : value ≠ .null) :
    (Shape.optional inner).read value = (inner.read value).map some := by
  cases value with
  | null => exact absurd rfl present
  | object | array | text | reference | concat => rfl

private theorem read_eq_ok_iff {result : shape.Carrier} :
    shape.read value = .ok result ↔ shape.Counterpart value result := by
  induction shape generalizing value with
  | text | boolean => exact Iff.rfl
  | integer type => exact Iff.rfl
  | float format => exact Iff.rfl
  | table =>
    cases value with
    | object fields =>
      refine readTable_eq_ok_iff.trans ⟨fun alike => ⟨fields, rfl, alike⟩, ?_⟩
      rintro ⟨_, ⟨⟩, alike⟩
      exact alike
    | array | text | null | reference | concat => exact iff_of_false nofun nofun
  | list element ih =>
    cases value with
    | array items =>
      refine mapM_eq_ok_iff.trans ?_
      simp only [ih]
      constructor
      · exact fun alike => ⟨items, rfl, alike⟩
      · rintro ⟨_, ⟨⟩, alike⟩
        exact alike
    | object | text | null | reference | concat => exact iff_of_false nofun nofun
  | optional inner ih =>
    by_cases null : value = .null
    · subst null
      constructor
      · rintro ⟨⟩
        exact .inl ⟨rfl, rfl⟩
      · rintro (⟨_, rfl⟩ | ⟨present, _⟩)
        · rfl
        · exact absurd rfl present
    · rw [read_optional null]
      refine map_eq_ok_iff.trans ?_
      simp only [ih]
      constructor
      · rintro ⟨found, alike, rfl⟩
        exact .inr ⟨null, found, rfl, alike⟩
      · rintro (⟨same, _⟩ | ⟨_, found, rfl, alike⟩)
        · exact absurd same null
        · exact ⟨found, alike, rfl⟩

/-- The values that have a counterpart are those that conform. -/
private theorem conforms_iff : shape.Conforms value ↔ ∃ result, shape.Counterpart value result := by
  induction shape generalizing value with
  | text | boolean => exact Iff.rfl
  | integer type => exact Iff.rfl
  | float format => exact Iff.rfl
  | table =>
    have each (fields : Object) := @exists_forall₂_iff (String × Value) (String × String)
      (fun field entry => field.1 = entry.1 ∧ readText field.2 = .ok entry.2) fields
    constructor
    · rintro ⟨fields, rfl, texts⟩
      obtain ⟨entries, alike⟩ := (each fields).mpr fun field member =>
        have ⟨content, done⟩ := texts field member
        ⟨(field.1, content), rfl, done⟩
      exact ⟨entries, fields, rfl, alike⟩
    · rintro ⟨entries, fields, rfl, alike⟩
      refine ⟨fields, rfl, fun field member => ?_⟩
      obtain ⟨entry, _, done⟩ := (each fields).mp ⟨entries, alike⟩ field member
      exact ⟨entry.2, done⟩
  | list element ih =>
    constructor
    · rintro ⟨items, rfl, each⟩
      obtain ⟨results, alike⟩ := exists_forall₂_iff.mpr fun item member => ih.mp (each item member)
      exact ⟨results, items, rfl, alike⟩
    · rintro ⟨results, items, rfl, alike⟩
      exact ⟨items, rfl, fun item member => ih.mpr (exists_forall₂_iff.mp ⟨results, alike⟩ item member)⟩
  | optional inner ih =>
    constructor
    · rintro (rfl | conforms)
      · exact ⟨none, .inl ⟨rfl, rfl⟩⟩
      · by_cases null : value = .null
        · exact ⟨none, .inl ⟨null, rfl⟩⟩
        · obtain ⟨found, alike⟩ := ih.mp conforms
          exact ⟨some found, .inr ⟨null, found, rfl, alike⟩⟩
    · rintro ⟨result, ⟨null, _⟩ | ⟨_, found, _, alike⟩⟩
      · exact .inl null
      · exact .inr (ih.mpr ⟨found, alike⟩)

/-- Of all that is visited, the first value with something wrong is the fault. -/
private theorem fault?_read :
    fault? (shape.read value) = (shape.visits value).findSome? fun visit => visit.1.offence? visit.2 := by
  induction shape generalizing value with
  | text | boolean => simp [visits, offence?]
  | integer type => simp [visits, offence?]
  | float format => simp [visits, offence?]
  | table =>
    cases value with
    | object fields =>
      have each (field : String × Value) :
          fault? (do return (field.1, ← readText field.2) : Except Misfit (String × String)) =
            fault? (readText field.2) := by
        cases readText field.2 <;> rfl
      refine (fault?_mapM _ fields).trans ?_
      simp only [each, visits, List.findSome?_cons, offence?, List.findSome?_map, Function.comp_def]
      rfl
    | array | text | null | reference | concat => rfl
  | list element ih =>
    cases value with
    | array items =>
      refine (fault?_mapM element.read items).trans ?_
      simp only [ih, visits, List.findSome?_cons, offence?, findSome?_flatMap]
    | object | text | null | reference | concat => rfl
  | optional inner ih =>
    by_cases null : value = .null
    · subst null
      rfl
    · rw [read_optional null]
      refine (fault?_map some (inner.read value)).trans ?_
      simp only [ih, visits, if_neg null, List.findSome?_cons, offence?]

/-- The first of the visited values with something wrong, and what it is. -/
def FirstOffence (shape : Shape) (value : Value) (misfit : Misfit) : Prop :=
  ∃ before offender after, shape.visits value = before ++ offender :: after ∧
    (∀ visit ∈ before, visit.1.offence? visit.2 = none) ∧ offender.1.offence? offender.2 = some misfit

private theorem read_eq_error_iff {misfit : Misfit} :
    shape.read value = .error misfit ↔ shape.FirstOffence value misfit := by
  rw [← fault?_eq_some_iff, fault?_read, List.findSome?_eq_some_iff]
  constructor
  · rintro ⟨before, offender, after, visited, wrong, others⟩
    exact ⟨before, offender, after, visited, others, wrong⟩
  · rintro ⟨before, offender, after, visited, others, wrong⟩
    exact ⟨before, offender, after, visited, wrong, others⟩

end Shape

namespace Config

variable {shape : Shape} {path : String} {value : Value}

private theorem readAt_eq_ok_iff {result : shape.Carrier} :
    readAt shape path value = .ok result ↔ shape.Counterpart value result := by
  rw [← Shape.read_eq_ok_iff, readAt]
  cases shape.read value <;> simp [Except.mapError]

private theorem readAt_eq_error_iff {fault : Fault} : readAt shape path value = .error fault ↔
    ∃ misfit, shape.FirstOffence value misfit ∧ fault = .unfit misfit (some path) := by
  simp only [← Shape.read_eq_error_iff, readAt]
  cases shape.read value <;> simp [Except.mapError, eq_comm]

/-- A path that leads nowhere is told as such, and is nothing where that is allowed. Otherwise a value
has just its counterpart, and has one just when it conforms. If it does not, the fault is the first
offence among the values inside; its message is followed by the path, once, and its hint and its number
stay. Where nothing is allowed, `null` is nothing too, and all else is read as before. -/
theorem getAs_by_structure (config : Config) (shape : Shape) (path : String) :
    match config.at? path with
    | none => config.getAs shape path = .error (.pathNotFound path) ∧ config.getOptional shape path = .ok none
    | some value =>
      (∀ result, config.getAs shape path = .ok result ↔ shape.Counterpart value result) ∧
        ((∃ result, config.getAs shape path = .ok result) ↔ shape.Conforms value) ∧
        (∀ fault, config.getAs shape path = .error fault ↔ ∃ misfit, shape.FirstOffence value misfit ∧
          fault = .unfit misfit (some path) ∧
          (Fault.unfit misfit none).report = ⟨.conversion misfit.message, misfit.hint?, some misfit.code⟩ ∧
          fault.report =
            ⟨.conversion (misfit.message ++ " (at '" ++ path ++ "')"), misfit.hint?, some misfit.code⟩) ∧
        (config.getOptional shape path = .ok none ↔ value = .null) ∧
        config.getOptional shape path =
          if value = .null then .ok none else (config.getAs shape path).map some := by
  cases found : config.at? path with
  | none =>
    have missing : config.get path = .error (.pathNotFound path) := by rw [get, found]
    refine ⟨?_, ?_⟩
    · rw [getAs, missing]
      rfl
    · rw [getOptional, found]
  | some value =>
    have read : config.getAs shape path = readAt shape path value := by
      have there : config.get path = .ok value := by rw [get, found]
      rw [getAs, there]
      rfl
    have optional : config.getOptional shape path =
        if value = .null then .ok none else (config.getAs shape path).map some := by
      rw [getOptional, found, read]
      cases value <;> simp
    refine ⟨fun result => ?_, ?_, fun fault => ?_, ?_, optional⟩
    · rw [read]
      exact readAt_eq_ok_iff
    · rw [read, Shape.conforms_iff]
      exact exists_congr fun result => readAt_eq_ok_iff
    · rw [read, readAt_eq_error_iff]
      constructor
      · rintro ⟨misfit, first, rfl⟩
        exact ⟨misfit, first, rfl, rfl, rfl⟩
      · rintro ⟨misfit, first, rfl, _⟩
        exact ⟨misfit, first, rfl⟩
    · rw [optional]
      by_cases null : value = .null
      · simp [null]
      · rw [if_neg null]
        cases config.getAs shape path <;> simp [Except.map, null]

/-- `null` is nothing in a list of options, and its first offence in a list of texts. -/
example : (Shape.list (.optional .text)).read (.array [.text "a", .null]) = .ok [some "a", none] ∧
    (Shape.list .text).read (.array [.text "a", .null, .array []]) = .error (.notText .null) :=
  ⟨rfl, rfl⟩

end Config
end Hocon
