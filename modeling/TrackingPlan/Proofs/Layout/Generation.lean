import TrackingPlan.Layout
import TrackingPlan.Proofs.FirstFault

/-!
# Generation of code succeeds

A shape can be asked for its value exactly when it has a literal form, and the
members of an object are asked only of shapes that have one. The other ways to
fail are lists of alternatives without any, and infinities among listed values:
code is generated from lists of names, which are looked at first when they are
empty. So there is code for every plan.
-/

namespace TrackingPlan

open TypeScript

section Literals

mutual

theorem Shape.succeeds_toLiteral? :
    (shape : Shape) → shape.hasLiteralForm = true → Succeeds shape.toLiteral?
  | .string _, _ => succeeds_ok _
  | .formatted .., _ => succeeds_ok _
  | .number .., _ => succeeds_ok _
  | .boolean, _ => succeeds_ok _
  | .constant .., _ => succeeds_ok _
  | .object ⟨properties, _⟩, _ => by
      rw [Shape.toLiteral?]
      exact succeeds_bind (succeeds_propertiesToMembers properties) fun _ => succeeds_ok _
  | .union .., h => by cases h
  | .array _, h => by cases h
  | .reference _, h => by cases h

/-- Whatever is among the properties: those without a literal form are not asked. -/
theorem succeeds_propertiesToMembers :
    (properties : List (Property Shape)) → Succeeds (propertiesToMembers properties)
  | [] => succeeds_ok _
  | ⟨name, type, required⟩ :: rest => by
      have hrest : ∀ value : Option Expr, Succeeds (do
          let members ← propertiesToMembers rest
          match value with
          | some value => return .property name value :: members
          | none => return members) := by
        intro value
        refine succeeds_bind (succeeds_propertiesToMembers rest) fun members => ?_
        cases value with
        | none => exact succeeds_ok members
        | some value => exact succeeds_ok (.property name value :: members)
      rw [propertiesToMembers]
      cases hform : type.hasLiteralForm with
      | false => exact hrest none
      | true => exact succeeds_bind (type.succeeds_toLiteral? hform) hrest

end

theorem Shape.toLiteral?_of_no_form {shape : Shape} (hform : shape.hasLiteralForm = false) :
    shape.toLiteral? = .error (.ofCause (.noLiteralForm shape.kindName)) := by
  cases shape with
  | union | array | reference => simp only [Shape.toLiteral?, Shape.kindName]
  | string | formatted | number | boolean | constant | object => cases hform

theorem Shape.toLiteral?_eq_error_iff {shape : Shape} {fault : Fault} :
    shape.toLiteral? = .error fault ↔
      shape.hasLiteralForm = false ∧ fault = .ofCause (.noLiteralForm shape.kindName) := by
  constructor
  · intro herror
    cases hform : shape.hasLiteralForm with
    | true =>
        obtain ⟨value, hvalue⟩ := shape.succeeds_toLiteral? hform
        rw [hvalue] at herror
        cases herror
    | false =>
        rw [Shape.toLiteral?_of_no_form hform, Except.error.injEq] at herror
        exact ⟨rfl, herror.symm⟩
  · rintro ⟨hform, rfl⟩
    exact Shape.toLiteral?_of_no_form hform

theorem Record.succeeds_literalMembers (record : ObjectShape) : Succeeds record.literalMembers :=
  succeeds_propertiesToMembers record.properties

end Literals

section Alternatives

theorem Shape.succeeds_unionOf {options : List Shape} (hoptions : options ≠ []) :
    Succeeds (Shape.unionOf options) := by
  match options, hoptions with
  | [option], _ => exact succeeds_ok option
  | first :: second :: others, _ => exact succeeds_ok (Shape.union first second others)

/-- Only an infinity or NaN is not a value of a type. -/
theorem Shape.succeeds_allowedValue {base : Shape} {value : Literal}
    (hfinite : ∀ float, value = .float float → float.isFinite = true) :
    Succeeds (Shape.allowedValue base value) := by
  cases value with
  | float float =>
      simp only [Shape.allowedValue, if_pos (hfinite float rfl)]
      exact succeeds_ok _
  | string | integer | boolean => exact succeeds_ok _

theorem Shape.succeeds_enumeration {values : List Literal} {base : Shape} (hvalues : values ≠ [])
    (hfinite : ∀ float, Literal.float float ∈ values → float.isFinite = true) :
    Succeeds (Shape.enumeration values base) := by
  have hallowed : ∀ value ∈ values, Succeeds (Shape.allowedValue base value) :=
    fun value hvalue => Shape.succeeds_allowedValue fun float heq => hfinite float (heq ▸ hvalue)
  obtain ⟨options, hoptions⟩ := succeeds_mapM hallowed
  have hlength := (mapM_eq_ok_iff.mp hoptions).length_eq
  rw [Shape.enumeration, hoptions]
  match options, hlength with
  | [], hlength => exact absurd (List.length_eq_zero_iff.mp hlength) hvalues
  | [option], _ => exact succeeds_ok option
  | first :: second :: others, _ => exact succeeds_ok (Shape.union first second others)

end Alternatives

theorem succeeds_narrowedProperty (property : String) (all : Reference) (names : List String) :
    Succeeds (narrowedProperty property all names) := by
  match names with
  | [] => exact succeeds_ok _
  | [name] => exact succeeds_ok _
  | first :: second :: others =>
      refine succeeds_bind (Shape.succeeds_unionOf ?_) fun _ => succeeds_ok _
      exact List.cons_ne_nil _ _

theorem SourceNames.succeeds_toObject (names : SourceNames) : Succeeds names.toObject := by
  refine succeeds_bind (succeeds_narrowedProperty _ _ names.features) fun _ => ?_
  exact succeeds_bind (succeeds_narrowedProperty _ _ names.screens) fun _ => succeeds_ok _

theorem succeeds_namesType (names : List String) : Succeeds (namesType names) := by
  cases names with
  | nil => exact succeeds_ok _
  | cons name others =>
      refine succeeds_bind (Shape.succeeds_enumeration (List.cons_ne_nil _ _) ?_)
        fun _ => succeeds_ok _
      intro float hfloat
      obtain ⟨name, -, heq⟩ := List.mem_map.mp hfloat
      cases heq

theorem succeeds_namesItems (name comment : String) (names : List String) :
    Succeeds (namesItems name comment names) :=
  succeeds_bind (succeeds_namesType names) fun _ => succeeds_ok _

section Events

variable (options : FunctionOptions) (plan : Plan)

theorem succeeds_trackingFunction (event : Event) (names : SourceNames) :
    Succeeds (trackingFunction options event names) := by
  refine succeeds_bind names.succeeds_toObject fun source => ?_
  exact succeeds_bind source.succeeds_literalMembers fun _ => succeeds_ok _

theorem Track.succeeds_toItems (track : Track) : Succeeds (track.toItems options plan) :=
  succeeds_bind (succeeds_inContext (succeeds_trackingFunction options _ _)) fun _ => succeeds_ok _

theorem Screen.succeeds_toItems (screen : Screen) : Succeeds (screen.toItems options plan) := by
  refine succeeds_bind (succeeds_inContext (succeeds_trackingFunction options _ _)) fun _ => ?_
  refine succeeds_bind (succeeds_mapM fun track _ => ?_) fun _ => succeeds_ok _
  exact succeeds_inContext (track.succeeds_toItems options plan)

end Events

theorem Plan.succeeds_toGroups (options : LayoutOptions) (plan : Plan) :
    Succeeds (plan.toGroups options) := by
  refine succeeds_bind (succeeds_namesItems _ _ _) fun _ => ?_
  refine succeeds_bind (succeeds_namesItems _ _ _) fun _ => ?_
  refine succeeds_bind (succeeds_mapM fun screen _ => ?_) fun _ => ?_
  · exact succeeds_bind (screen.succeeds_toItems _ plan) fun _ => succeeds_ok _
  refine succeeds_bind (succeeds_mapM fun track _ => ?_) fun _ => succeeds_ok _
  exact succeeds_bind (track.succeeds_toItems _ plan) fun _ => succeeds_ok _

/-- A shape without a literal form is the only fault of generated code, and
nothing in the code for a plan asks one. -/
theorem Plan.generation_succeeds :
    (∀ (shape : Shape) (fault : Fault), shape.toLiteral? = .error fault ↔
      shape.hasLiteralForm = false ∧ fault = .ofCause (.noLiteralForm shape.kindName)) ∧
    (∀ record : ObjectShape, ∃ members, record.literalMembers = .ok members) ∧
    (∀ names : SourceNames, ∃ source, names.toObject = .ok source) ∧
    (∀ names : List String, ∃ type, namesType names = .ok type) ∧
    ∀ plan : Plan,
      (∀ (options : FunctionOptions) (track : Track),
        ∃ items, track.toItems options plan = .ok items) ∧
      (∀ (options : FunctionOptions) (screen : Screen),
        ∃ items, screen.toItems options plan = .ok items) ∧
      ∀ options : LayoutOptions, ∃ groups, plan.toGroups options = .ok groups := by
  refine ⟨fun shape fault => Shape.toLiteral?_eq_error_iff, Record.succeeds_literalMembers,
    SourceNames.succeeds_toObject, succeeds_namesType, fun plan => ⟨?_, ?_, ?_⟩⟩
  · exact fun options track => track.succeeds_toItems options plan
  · exact fun options screen => screen.succeeds_toItems options plan
  · exact fun options => plan.succeeds_toGroups options

end TrackingPlan
