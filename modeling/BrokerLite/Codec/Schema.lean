/-
# Codec.Schema -- message schemas and their registry

A `Schema` names the fields a message has to have and the types of the fields it
may have; `validate` lists what is wrong with a value.  The registry keeps
schemas by name and version and says of a version whether it still reads what the
version before it accepted.

`validate_meansDeclared_iff` compares what is accepted with what the schema was made
with: the constructor takes an empty list of required fields for a missing one.

The registry compares the required fields only.  `isBackwardCompatible_sound_iff` says
for which pairs of versions its answer can be relied on: a field may not be given
a narrower type (`Widens`).
-/
import BrokerLite.Codec.Value
import BrokerLite.Theory.Dict
import Mathlib.Data.List.Dedup

namespace BrokerLite

open Theory

set_option autoImplicit false

/-! ## Types -/

/-- What `isinstance` is asked for. -/
inductive PyType where
  | str
  | int
  | intOrFloat
  | bool
  | list
  | dict
  | object
  deriving DecidableEq

/-- `isinstance(value, type)`; a bool is an int as well. -/
def Value.isInstance : Value → PyType → Bool
  | .str _, .str => true
  | .int _, .int => true
  | .bool _, .int => true
  | .int _, .intOrFloat => true
  | .bool _, .intOrFloat => true
  | .float _, .intOrFloat => true
  | .bool _, .bool => true
  | .list _, .list => true
  | .dict _, .dict => true
  | _, .object => true
  | _, _ => false

namespace PyType

/-- `Schema.TYPE_MAP`. -/
def ofName : String → Option PyType
  | "string" => some .str
  | "int" => some .int
  | "float" => some .intOrFloat
  | "bool" => some .bool
  | "list" => some .list
  | "dict" => some .dict
  | "any" => some .object
  | _ => none

/-- Every value of the first type is one of the second. -/
def within : PyType → PyType → Bool
  | _, .object => true
  | .int, .intOrFloat => true
  | .bool, .int => true
  | .bool, .intOrFloat => true
  | t, t' => t = t'

/-- A value of the type, of no narrower type. -/
def typical : PyType → Value
  | .str => .str ""
  | .int => .int 0
  | .intOrFloat => .float 0
  | .bool => .bool false
  | .list => .list []
  | .dict => .dict []
  | .object => .none

theorem isInstance_typical (t : PyType) : t.typical.isInstance t = true := by
  cases t <;> rfl

theorem isInstance_object (v : Value) : v.isInstance .object = true := by
  cases v <;> rfl

theorem isInstance_of_within {t t' : PyType} (within : t.within t' = true) {v : Value}
    (has : v.isInstance t = true) : v.isInstance t' = true := by
  cases t <;> cases t' <;>
    first
    | exact has
    | exact isInstance_object v
    | exact absurd within (by decide)
    | (cases v <;> first | rfl | cases has)

theorem within_of_typical {t t' : PyType} (accepted : t.typical.isInstance t' = true) :
    t.within t' = true := by
  cases t <;> cases t' <;> first | rfl | cases accepted

end PyType

/-! ## Schemas -/

inductive SchemaError where
  | notADictionary
  | missing (field : String)
  | wrongType (field expected got : String)
  deriving DecidableEq

/-- The text of the error; `repr` is the language's `repr` of a string. -/
def SchemaError.text (repr : String → String) : SchemaError → String
  | .notADictionary => "Data must be a dictionary"
  | .missing field => s!"Missing required field: {repr field}"
  | .wrongType field expected got => s!"Field {repr field}: expected {expected}, got {got}"

structure Schema where
  name : String
  version : ℤ
  fields : Dict String String
  required : List String

namespace Schema

/-- The constructor: without a list of required fields, or with an empty one, all are required. -/
def new (name : String) (version : ℤ) (fields : Dict String String)
    (required : Option (List String)) : Schema where
  name := name
  version := version
  fields := fields
  required :=
    match required with
    | none => fields.keys
    | some [] => fields.keys
    | some required => required

/-- `field_name in data`. -/
def hasField (entries : List (Value × Value)) (field : String) : Bool :=
  entries.any fun e => e.1.sameKey (.str field)

/-- The type a field of that name must have; a field that is not declared, or declared with a
name that the type map does not have, may have any. -/
def typeOf (s : Schema) (field : String) : PyType :=
  match s.fields.get? field with
  | none => .object
  | some expected => (PyType.ofName expected).getD .object

/-- What is wrong with one entry of the data. -/
def checkEntry (s : Schema) (e : Value × Value) : Option SchemaError :=
  match e.1 with
  | .str field =>
      match s.fields.get? field with
      | none => none
      | some expected =>
          match PyType.ofName expected with
          | none => none
          | some type =>
              if e.2.isInstance type then none
              else some (.wrongType field expected e.2.typeName)
  | _ => none

def validate (s : Schema) : Value → Bool × List SchemaError
  | .dict entries =>
      let missing := (s.required.filter fun field => !hasField entries field).map SchemaError.missing
      let errors := missing ++ entries.filterMap s.checkEntry
      (errors.length = 0, errors)
  | _ => (false, [.notADictionary])

/-- The schema accepts the value. -/
def Accepts (s : Schema) (data : Value) : Prop := (s.validate data).1 = true

instance (s : Schema) (data : Value) : Decidable (s.Accepts data) :=
  inferInstanceAs (Decidable (_ = true))

end Schema

/-! ## The registry -/

inductive CompatibilityError where
  | newRequiredFields (fields : List String)
  deriving DecidableEq

structure SchemaRegistry where
  schemas : Dict String (Dict ℤ Schema) := .empty

namespace SchemaRegistry

def register (r : SchemaRegistry) (schema : Schema) : SchemaRegistry where
  schemas := r.schemas.set schema.name ((r.schemas.getD schema.name .empty).set schema.version schema)

/-- The schema of that version, or the latest one. -/
def get (r : SchemaRegistry) (name : String) (version : Option ℤ) : Option Schema :=
  match r.schemas.get? name with
  | none => none
  | some versions =>
      match version with
      | some version => versions.get? version
      | none => versions.keys.max?.bind versions.get?

def isBackwardCompatible (r : SchemaRegistry) (name : String) (newVersion : ℤ) :
    Bool × List CompatibilityError :=
  match r.get name (some (newVersion - 1)), r.get name (some newVersion) with
  | some old, some new =>
      let newFields := new.required.dedup.filter fun field => field ∉ old.required
      let errors := if newFields = [] then [] else [.newRequiredFields newFields]
      (errors.length = 0, errors)
  | _, _ => (true, [])

end SchemaRegistry

/-! ## What validation accepts -/

namespace Schema

theorem checkEntry_eq_none_iff {s : Schema} {e : Value × Value} :
    s.checkEntry e = none ↔ ∀ field, e.1 = .str field → e.2.isInstance (s.typeOf field) = true := by
  obtain ⟨k, v⟩ := e
  cases k with
  | str field =>
      unfold checkEntry typeOf
      cases declared : s.fields.get? field with
      | none => simp [declared, PyType.isInstance_object]
      | some expected =>
          cases known : PyType.ofName expected with
          | none => simp [declared, known, PyType.isInstance_object]
          | some type => simp [declared, known]
  | _ => simp [checkEntry]

theorem accepts_dict_iff {s : Schema} {entries : List (Value × Value)} :
    s.Accepts (.dict entries) ↔ (∀ field ∈ s.required, hasField entries field = true) ∧
      ∀ e ∈ entries, ∀ field, e.1 = .str field → e.2.isInstance (s.typeOf field) = true := by
  simp only [Accepts, validate, decide_eq_true_eq, List.length_eq_zero_iff, List.append_eq_nil_iff,
    List.map_eq_nil_iff, List.filter_eq_nil_iff, List.filterMap_eq_nil_iff, checkEntry_eq_none_iff,
    Bool.not_eq_true', Bool.not_eq_false]

/-! ## What a schema declares -/

/-- The fields a schema is declared to require; all of them where no list is given. -/
def declaredRequired (fields : Dict String String) : Option (List String) → List String
  | none => fields.keys
  | some required => required

/-- Every declared field the data has is of its declared type. -/
def WellTyped (fields : Dict String String) (entries : List (Value × Value)) : Prop :=
  ∀ e ∈ entries, ∀ field, e.1 = .str field → ∀ expected, fields.get? field = some expected →
    ∀ type, PyType.ofName expected = some type → e.2.isInstance type = true

/-- `validate` accepts the data when the required fields are there and every field is well
typed, and lists errors otherwise. -/
def MeansDeclared (name : String) (version : ℤ) (fields : Dict String String)
    (required : Option (List String)) (entries : List (Value × Value)) : Prop :=
  let answer := (new name version fields required).validate (.dict entries)
  (answer.1 = true ↔ (∀ field ∈ declaredRequired fields required, hasField entries field = true) ∧
    WellTyped fields entries) ∧
  (answer.2 = [] ↔ answer.1 = true)

theorem new_required (name : String) (version : ℤ) (fields : Dict String String)
    {required : Option (List String)} (filled : required ≠ some []) :
    (new name version fields required).required = declaredRequired fields required := by
  unfold new declaredRequired
  cases required with
  | none => rfl
  | some required =>
      cases required with
      | nil => exact absurd rfl filled
      | cons _ _ => rfl

theorem isInstance_typeOf_iff {s : Schema} {field : String} {v : Value} :
    v.isInstance (s.typeOf field) = true ↔ ∀ expected, s.fields.get? field = some expected →
      ∀ type, PyType.ofName expected = some type → v.isInstance type = true := by
  unfold typeOf
  cases declared : s.fields.get? field with
  | none => simp [PyType.isInstance_object]
  | some expected =>
      cases known : PyType.ofName expected with
      | none => simp [known, PyType.isInstance_object]
      | some type => simp [known]

theorem wellTyped_iff {s : Schema} {entries : List (Value × Value)} :
    WellTyped s.fields entries ↔
      ∀ e ∈ entries, ∀ field, e.1 = .str field → e.2.isInstance (s.typeOf field) = true := by
  simp only [WellTyped, isInstance_typeOf_iff]

theorem validate_errors_nil_iff (s : Schema) (entries : List (Value × Value)) :
    (s.validate (.dict entries)).2 = [] ↔ (s.validate (.dict entries)).1 = true := by
  simp only [validate, decide_eq_true_eq, List.length_eq_zero_iff]

/-- **When validation means what was declared.**  Only an empty list of required fields is
not taken as it stands: it is followed where the data has every declared field all the
same, or has one of a wrong type. -/
theorem validate_meansDeclared_iff (name : String) (version : ℤ) (fields : Dict String String)
    (required : Option (List String)) (entries : List (Value × Value)) :
    MeansDeclared name version fields required entries ↔
      (required = some [] →
        (∀ field ∈ fields.keys, hasField entries field = true) ∨ ¬ WellTyped fields entries) := by
  have accepted : ((new name version fields required).validate (.dict entries)).1 = true ↔
      (∀ field ∈ (new name version fields required).required, hasField entries field = true) ∧
        WellTyped fields entries := by
    rw [← Accepts, accepts_dict_iff, ← wellTyped_iff]
    rfl
  unfold MeansDeclared
  dsimp only
  rw [and_iff_left (validate_errors_nil_iff _ entries), accepted]
  by_cases empty : required = some []
  · subst empty
    have all : (new name version fields (some [])).required = fields.keys := rfl
    simp only [all, declaredRequired, List.not_mem_nil, false_implies, implies_true, true_and,
      forall_const]
    constructor
    · intro same
      by_cases typed : WellTyped fields entries
      · exact .inl (same.mpr typed).1
      · exact .inr typed
    · rintro (present | illTyped)
      · exact and_iff_right present
      · exact iff_of_false (fun both => illTyped both.2) illTyped
  · rw [new_required name version fields empty]
    exact iff_of_true Iff.rfl fun declared => absurd declared empty

/-- No field is declared to be required, and the empty dict is rejected. -/
theorem noneRequired_not_meansDeclared :
    ¬ MeansDeclared "order" 1 (.set .empty "id" "int") (some []) [] := by
  intro means
  have typed : WellTyped (.set .empty "id" "int") [] := fun e member => absurd member List.not_mem_nil
  have accepted := means.1.mpr ⟨fun field member => absurd member List.not_mem_nil, typed⟩
  exact absurd accepted (by decide)

/-! ## Two versions -/

/-- Every field that `new` declares was declared in `old` with a type that has no other values. -/
def Widens (old new : Schema) : Prop :=
  ∀ field ∈ new.fields.keys, (old.typeOf field).within (new.typeOf field) = true

instance (old new : Schema) : Decidable (old.Widens new) := inferInstanceAs (Decidable (∀ _ ∈ _, _))

theorem typeOf_of_undeclared {s : Schema} {field : String} (undeclared : field ∉ s.fields.keys) :
    s.typeOf field = .object := by
  rw [typeOf, Dict.get?_eq_none_iff.mpr undeclared]

/-- Data with the given fields, each with a value of its type. -/
def sample (s : Schema) (fields : List String) : List (Value × Value) :=
  fields.dedup.map fun field => (.str field, (s.typeOf field).typical)

theorem mem_sample {s : Schema} {fields : List String} {field : String} (member : field ∈ fields) :
    (.str field, (s.typeOf field).typical) ∈ s.sample fields :=
  List.mem_map.mpr ⟨field, List.mem_dedup.mpr member, rfl⟩

theorem sample_isDict (s : Schema) (fields : List String) : Value.IsDict (s.sample fields) := by
  constructor
  · refine List.pairwise_map.mpr ((List.nodup_dedup fields).imp fun {f g} differ => ?_)
    simpa [Value.sameKey] using differ
  · intro e member
    obtain ⟨field, -, rfl⟩ := List.mem_map.mp member
    rfl

theorem accepts_sample {s : Schema} {fields : List String} (complete : s.required ⊆ fields) :
    s.Accepts (.dict (s.sample fields)) := by
  refine accepts_dict_iff.mpr ⟨fun field required => ?_, fun e member field named => ?_⟩
  · exact List.any_eq_true.mpr ⟨_, mem_sample (complete required), by simp [Value.sameKey]⟩
  · obtain ⟨field', -, rfl⟩ := List.mem_map.mp member
    rw [Value.str.inj named]
    exact PyType.isInstance_typical _

end Schema

theorem SchemaRegistry.isBackwardCompatible_iff {r : SchemaRegistry} {name : String} {v : ℤ}
    {old new : Schema} (oldFound : r.get name (some (v - 1)) = some old)
    (newFound : r.get name (some v) = some new) :
    (r.isBackwardCompatible name v).1 = true ↔ new.required ⊆ old.required := by
  unfold isBackwardCompatible
  rw [oldFound, newFound]
  dsimp only
  split
  · next none =>
      refine iff_of_true rfl fun field required => ?_
      by_contra missing
      have new : field ∈ new.required.dedup.filter fun field => field ∉ old.required :=
        List.mem_filter.mpr ⟨List.mem_dedup.mpr required, decide_eq_true missing⟩
      rw [none] at new
      cases new
  · next some =>
      refine iff_of_false (by simp) fun subset => some ?_
      rw [List.filter_eq_nil_iff]
      intro field required
      simpa using subset (List.mem_dedup.mp required)

/-- **When the compatibility check can be relied on.**  What the version before accepts is
accepted whenever the check says so, exactly when the check says no or no field was given a
type that leaves out values the version before admits. -/
theorem SchemaRegistry.isBackwardCompatible_sound_iff {r : SchemaRegistry} {name : String} {v : ℤ}
    {old new : Schema} (oldFound : r.get name (some (v - 1)) = some old)
    (newFound : r.get name (some v) = some new) :
    ((r.isBackwardCompatible name v).1 = true → ∀ entries, Value.IsDict entries →
        old.Accepts (.dict entries) → new.Accepts (.dict entries)) ↔
      (¬ new.required ⊆ old.required ∨ old.Widens new) := by
  rw [isBackwardCompatible_iff oldFound newFound]
  constructor
  · intro sound
    by_cases subset : new.required ⊆ old.required
    · refine .inr fun field _ => ?_
      -- Data that has the field, typical for the version before.
      have accepted := sound subset _ (old.sample_isDict (field :: old.required))
        (Schema.accepts_sample (List.subset_cons_self field old.required))
      exact PyType.within_of_typical ((Schema.accepts_dict_iff.mp accepted).2 _
        (Schema.mem_sample List.mem_cons_self) field rfl)
    · exact .inl subset
  · rintro (larger | widens) subset entries - accepted
    · exact absurd subset larger
    · obtain ⟨present, typed⟩ := Schema.accepts_dict_iff.mp accepted
      refine Schema.accepts_dict_iff.mpr ⟨fun field required => present field (subset required), ?_⟩
      intro e member field named
      by_cases declared : field ∈ new.fields.keys
      · exact PyType.isInstance_of_within (widens field declared) (typed e member field named)
      · rw [Schema.typeOf_of_undeclared declared]
        exact PyType.isInstance_object _

/-! ## Two versions that differ in a type -/

/-- Version 1 of a schema has the field as `before`, version 2 as `after`. -/
def retyped (before after : String) : SchemaRegistry :=
  let fields := fun type => (Dict.empty : Dict String String).set "id" type
  (SchemaRegistry.register {} (.new "order" 1 (fields before) none)).register
    (.new "order" 2 (fields after) none)

theorem retyped_widened :
    ((retyped "int" "float").isBackwardCompatible "order" 2).1 = true ∧
      ∀ entries, Value.IsDict entries →
        (Schema.new "order" 1 (Dict.set .empty "id" "int") none).Accepts (.dict entries) →
        (Schema.new "order" 2 (Dict.set .empty "id" "float") none).Accepts (.dict entries) :=
  have old : (retyped "int" "float").get "order" (some (2 - 1)) =
      some (.new "order" 1 (Dict.set .empty "id" "int") none) := rfl
  have new : (retyped "int" "float").get "order" (some 2) =
      some (.new "order" 2 (Dict.set .empty "id" "float") none) := rfl
  ⟨rfl, (SchemaRegistry.isBackwardCompatible_sound_iff old new).mpr (.inr (by decide)) rfl⟩

theorem retyped_narrowed :
    ((retyped "int" "string").isBackwardCompatible "order" 2).1 = true ∧
      ∃ old new, (retyped "int" "string").get "order" (some 1) = some old ∧
        (retyped "int" "string").get "order" (some 2) = some new ∧
        Value.IsDict [(.str "id", .int 7)] ∧
        old.Accepts (.dict [(.str "id", .int 7)]) ∧ ¬ new.Accepts (.dict [(.str "id", .int 7)]) :=
  ⟨rfl, Schema.new "order" 1 (Dict.set .empty "id" "int") none,
    Schema.new "order" 2 (Dict.set .empty "id" "string") none, rfl, rfl,
    ⟨List.pairwise_singleton _ _, by simp [Value.hashable]⟩, by decide, by decide⟩

end BrokerLite
