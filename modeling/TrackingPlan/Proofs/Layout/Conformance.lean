import TrackingPlan.Proofs.Layout.Narrowing
import TrackingPlan.Proofs.TypeScript.Evaluation

/-!
# Values of a type

Which values a generated type accepts, where names stand for the types that
modules declare under them. For the source of an event these are the objects
that name a feature and a screen the event can happen under, and leave out such
a name only if no other one is possible.
-/

namespace TrackingPlan

open TypeScript

namespace TypeScript

/-- What names stand for in a module: its own declarations, and those of other modules behind
the names that they are imported by. -/
structure Scope where
  own : List Item
  imported : String → List Item

/-- What is read from entries under a name: without an entry, the same as where there is one that
says undefined. -/
def readEntry (entries : List (String × Value)) (name : String) : Value :=
  (entries.lookup name).getD .undefined

/-- The values of a type. A property that may be left out may also be there and say undefined;
any other property has a value of its type. -/
inductive Ty.Accepts : Scope → Ty → Value → Prop where
  | string {scope : Scope} (text : String) : Accepts scope (.primitive .string) (.string text)
  | integer {scope : Scope} (value : Int64) :
      Accepts scope (.primitive .number) (.literal (.integer value))
  | float {scope : Scope} (value : Binary64) :
      Accepts scope (.primitive .number) (.literal (.float value))
  | boolean {scope : Scope} (value : Bool) :
      Accepts scope (.primitive .boolean) (.literal (.boolean value))
  | null {scope : Scope} : Accepts scope (.primitive .null) .null
  | literal {scope : Scope} (value : Literal) : Accepts scope (.literal value) (.literal value)
  | union {scope : Scope} {options : List Ty} {option : Ty} {value : Value}
      (hoption : option ∈ options) (haccepts : Accepts scope option value) :
      Accepts scope (.union options) value
  | array {scope : Scope} {items : Ty} {values : List Value}
      (haccepts : ∀ value ∈ values, Accepts scope items value) :
      Accepts scope (.array items) (.array values)
  | object {scope : Scope} {fields : List (TypeField Ty)} {entries : List (String × Value)}
      (haccepts : ∀ field ∈ fields, readEntry entries field.name ≠ .undefined →
        Accepts scope field.type (readEntry entries field.name))
      (hleft : ∀ field ∈ fields, readEntry entries field.name = .undefined →
        field.optional = true) :
      Accepts scope (.object fields) (.object entries)
  | name {scope : Scope} {name : String} {type : Ty} {value : Value}
      (hdeclared : declaredType? scope.own name = some type)
      (haccepts : Accepts scope type value) : Accepts scope (.name name) value
  | qualified {scope : Scope} {qualifier name : String} {type : Ty} {value : Value}
      (hdeclared : declaredType? (scope.imported qualifier) name = some type)
      (haccepts : Accepts ⟨scope.imported qualifier, fun _ => []⟩ type value) :
      Accepts scope (.qualified qualifier name) value

section Accepts

variable {scope : Scope} {value : Value}

/-- No type has undefined for a value; only a property may say so. -/
theorem Ty.Accepts.ne_undefined {type : Ty} (haccepts : type.Accepts scope value) :
    value ≠ .undefined := by
  induction haccepts with
  | union _ _ ih | name _ _ ih | qualified _ _ ih => exact ih
  | string | integer | float | boolean | null | literal | array | object => nofun

theorem Ty.accepts_string_iff :
    Accepts scope (.primitive .string) value ↔ ∃ text, value = .string text := by
  constructor
  · rintro ⟨text⟩
    exact ⟨text, rfl⟩
  · rintro ⟨text, rfl⟩
    exact .string text

theorem Ty.accepts_literal_iff {only : Literal} :
    Accepts scope (.literal only) value ↔ value = .literal only := by
  constructor
  · rintro ⟨⟩
    rfl
  · rintro rfl
    exact .literal only

theorem Ty.accepts_union_iff {options : List Ty} :
    Accepts scope (.union options) value ↔ ∃ option ∈ options, option.Accepts scope value := by
  constructor
  · intro hunion
    cases hunion with
    | union hoption haccepts => exact ⟨_, hoption, haccepts⟩
  · rintro ⟨option, hoption, haccepts⟩
    exact .union hoption haccepts

theorem Ty.accepts_object_iff {fields : List (TypeField Ty)} {entries : List (String × Value)} :
    Accepts scope (.object fields) (.object entries) ↔ ∀ field ∈ fields,
      (readEntry entries field.name ≠ .undefined →
        field.type.Accepts scope (readEntry entries field.name)) ∧
      (readEntry entries field.name = .undefined → field.optional = true) := by
  constructor
  · intro hobject
    cases hobject with
    | object haccepts hleft =>
        exact fun field hfield => ⟨haccepts field hfield, hleft field hfield⟩
  · intro hfields
    exact .object (fun field hfield => (hfields field hfield).1)
      fun field hfield => (hfields field hfield).2

theorem Ty.accepts_name_iff {name : String} {type : Ty}
    (hdeclared : declaredType? scope.own name = some type) :
    Accepts scope (.name name) value ↔ type.Accepts scope value := by
  constructor
  · intro hname
    cases hname with
    | name hother haccepts =>
        obtain rfl := Option.some.inj (hdeclared.symm.trans hother)
        exact haccepts
  · exact .name hdeclared

theorem Ty.accepts_qualified_iff {qualifier name : String} {type : Ty}
    (hdeclared : declaredType? (scope.imported qualifier) name = some type) :
    Accepts scope (.qualified qualifier name) value ↔
      type.Accepts ⟨scope.imported qualifier, fun _ => []⟩ value := by
  constructor
  · intro hqualified
    cases hqualified with
    | qualified hother haccepts =>
        obtain rfl := Option.some.inj (hdeclared.symm.trans hother)
        exact haccepts
  · exact .qualified hdeclared

end Accepts

end TypeScript

/-- The shared definitions are in reach: behind the name that they are imported by, or in the
module itself if it does not import them. -/
def TypeScript.Scope.Reaches (scope : Scope) (mappings : ImportMappings) (shared : List Item) :
    Prop :=
  match mappings.get? "$defs" with
  | some mapping => scope.imported mapping.qualifier = shared
  | none => scope.own = shared

/-- The names that are possible: all of them, unless there are some in particular. -/
def possibleNames (all names : List String) : List String := if names = [] then all else names

section Names

variable {scope : Scope} {value : Value} {mappings : ImportMappings} {shared : List Item}

theorem accepts_namesUnion_iff {names : List String} :
    (namesUnion names).Accepts scope value ↔ ∃ name ∈ names, value = .string name := by
  rcases names with _ | ⟨first, _ | ⟨second, others⟩⟩
  · refine ⟨fun haccepts => ?_, fun ⟨name, hname, _⟩ => absurd hname List.not_mem_nil⟩
    cases haccepts
  · rw [namesUnion, Ty.accepts_literal_iff]
    simp only [List.mem_singleton, exists_eq_left, Value.string]
  · rw [namesUnion, Ty.accepts_union_iff]
    simp only [List.mem_map, exists_exists_and_eq_and, Ty.accepts_literal_iff, Value.string]

theorem Reference.toType_definition (mappings : ImportMappings) {name : String}
    (hname : '/' ∉ name.toList) : toType mappings ⟨definitionPath name⟩ =
      match mappings.get? "$defs" with
      | some mapping => .qualified mapping.qualifier name
      | none => .name name := by
  unfold toType scope? Reference.name
  rw [segments_definitionPath hname]
  rfl

/-- A reference to a definition accepts what the definition does. -/
theorem accepts_reference_iff {name : String} (hname : '/' ∉ name.toList)
    (hreaches : scope.Reaches mappings shared) {names : List String}
    (hdeclared : declaredType? shared name = some (namesUnion names)) :
    (Reference.toType mappings ⟨definitionPath name⟩).Accepts scope value ↔
      ∃ text ∈ names, value = .string text := by
  rw [Reference.toType_definition mappings hname]
  unfold Scope.Reaches at hreaches
  cases hmapping : mappings.get? "$defs" with
  | some mapping =>
      rw [hmapping] at hreaches
      subst hreaches
      rw [Ty.accepts_qualified_iff hdeclared, accepts_namesUnion_iff]
  | none =>
      rw [hmapping] at hreaches
      subst hreaches
      rw [Ty.accepts_name_iff hdeclared, accepts_namesUnion_iff]

/-- A narrowed property accepts the names that are possible. -/
theorem accepts_narrowed_iff {name : String} (hname : '/' ∉ name.toList)
    (hreaches : scope.Reaches mappings shared) {all names : List String}
    (hdeclared : declaredType? shared name = some (namesUnion all)) :
    ((narrowedShape ⟨definitionPath name⟩ names).toType mappings).Accepts scope value ↔
      ∃ text ∈ possibleNames all names, value = .string text := by
  unfold possibleNames
  by_cases hempty : names = []
  · subst hempty
    rw [if_pos rfl, narrowedShape, Shape.toType, accepts_reference_iff hname hreaches hdeclared]
  · rw [if_neg hempty, toType_narrowedShape _ _ hempty, accepts_namesUnion_iff]

end Names

namespace Plan

/-- The items of the module of shared definitions. -/
def sharedItems (plan : Plan) : List Item :=
  plan.namesItems ++ plan.definitions.flatMap (·.toItems .empty)

theorem mem_mergeGroups_shared (options : LayoutOptions) (plan : Plan) :
    ⟨[sharedDefinitions], plan.sharedItems⟩ ∈ mergeGroups (plan.groups options) := by
  rw [mergeGroups_groups]
  exact List.mem_append_left _ (List.mem_append_left _ List.mem_cons_self)

/-- An object says where an event happened: it names a feature and a screen under which that is
possible, unless there is only one, and has texts for the rest. -/
structure Locates (plan : Plan) (names : SourceNames) (entries : List (String × Value)) :
    Prop where
  feature : readEntry entries "feature" ≠ .undefined →
    ∃ name ∈ possibleNames plan.featureNames names.features,
      readEntry entries "feature" = .string name
  feature_left : readEntry entries "feature" = .undefined → names.features.length = 1
  screen : readEntry entries "screen" ≠ .undefined →
    ∃ name ∈ possibleNames plan.screenNames names.screens,
      readEntry entries "screen" = .string name
  screen_left : readEntry entries "screen" = .undefined → names.screens.length = 1
  rest : ∀ key ∈ ["widget", "element", "action"], readEntry entries key ≠ .undefined →
    ∃ text, readEntry entries key = .string text

section Source

variable {plan : Plan} {scope : Scope} {mappings : ImportMappings}

theorem accepts_feature_iff (hreaches : scope.Reaches mappings plan.sharedItems)
    (names : List String) (value : Value) :
    ((narrowedShape featureNamesReference names).toType mappings).Accepts scope value ↔
      ∃ name ∈ possibleNames plan.featureNames names, value = .string name := by
  have hname : '/' ∉ "FeatureNames".toList := by decide
  exact accepts_narrowed_iff hname hreaches rfl

theorem accepts_screen_iff (hreaches : scope.Reaches mappings plan.sharedItems)
    (names : List String) (value : Value) :
    ((narrowedShape screenNamesReference names).toType mappings).Accepts scope value ↔
      ∃ name ∈ possibleNames plan.screenNames names, value = .string name := by
  have hname : '/' ∉ "ScreenNames".toList := by decide
  exact accepts_narrowed_iff hname hreaches rfl

/-- The type of the source of an event accepts the objects that say where it happened. -/
theorem accepts_source_iff (hreaches : scope.Reaches mappings plan.sharedItems)
    (names : SourceNames) (entries : List (String × Value)) :
    (names.object.toType mappings).Accepts scope (.object entries) ↔
      plan.Locates names entries := by
  rw [Record.toType_eq, Ty.accepts_object_iff]
  simp only [SourceNames.object, freeProperty, List.map_cons, List.map_nil, List.forall_mem_cons,
    Shape.toType, accepts_feature_iff hreaches, accepts_screen_iff hreaches,
    Ty.accepts_string_iff, bne, Bool.not_not, beq_iff_eq]
  constructor
  · rintro ⟨⟨hfeature, hfeatureLeft⟩, ⟨hscreen, hscreenLeft⟩, ⟨hwidget, -⟩, ⟨helement, -⟩,
      ⟨haction, -⟩, -⟩
    exact ⟨hfeature, hfeatureLeft, hscreen, hscreenLeft, by
      simpa only [List.forall_mem_cons, List.not_mem_nil, false_imp_iff, implies_true, and_true]
        using ⟨hwidget, helement, haction⟩⟩
  · rintro ⟨hfeature, hfeatureLeft, hscreen, hscreenLeft, hrest⟩
    exact ⟨⟨hfeature, hfeatureLeft⟩, ⟨hscreen, hscreenLeft⟩, ⟨hrest _ (by simp), fun _ => rfl⟩,
      ⟨hrest _ (by simp), fun _ => rfl⟩, ⟨hrest _ (by simp), fun _ => rfl⟩, by simp⟩

end Source

end Plan

end TrackingPlan
