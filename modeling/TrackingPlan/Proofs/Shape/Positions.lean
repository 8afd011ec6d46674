import TrackingPlan.Proofs.Path.Names
import TrackingPlan.Proofs.Shape.Constructs
import TrackingPlan.Render

/-!
# Positions in types

A position leads from a type down to one of its parts. Rendering keeps
positions: what is at a position of a shape is rendered at the same position of
its type, for any imports. So is what a fragment of the document refers to.
-/

namespace TrackingPlan

open TypeScript

/-- One step down into a type. -/
inductive Step where
  | items
  | option (index : Nat)
  | field (index : Nat)
  deriving DecidableEq, Repr

/-- The part of a type at a position. -/
def TypeScript.Ty.at? : Ty → List Step → Option Ty
  | type, [] => some type
  | .array items, .items :: path => items.at? path
  | .union options, .option index :: path => options[index]?.bind fun option => option.at? path
  | .object fields, .field index :: path => fields[index]?.bind fun field => field.type.at? path
  | _, _ :: _ => none

/-- The part of a shape at a position. -/
def Shape.at? : Shape → List Step → Option Shape
  | shape, [] => some shape
  | .array items, .items :: path => items.at? path
  | .union first second others, .option index :: path =>
    (first :: second :: others)[index]?.bind fun option => option.at? path
  | .object record, .field index :: path =>
    record.properties[index]?.bind fun property => property.type.at? path
  | _, _ :: _ => none

theorem shapesToTypes_eq_map (mappings : ImportMappings) (shapes : List Shape) :
    shapesToTypes mappings shapes = shapes.map (Shape.toType mappings) := by
  induction shapes with
  | nil => rfl
  | cons shape rest ih => rw [shapesToTypes, ih, List.map_cons]

theorem propertiesToFields_eq_map (mappings : ImportMappings)
    (properties : List (Property Shape)) :
    propertiesToFields mappings properties = properties.map fun property =>
      ⟨property.name, property.type.toType mappings, !property.required⟩ := by
  induction properties with
  | nil => rfl
  | cons property rest ih => rw [propertiesToFields, ih, List.map_cons]

theorem Shape.toType_union (mappings : ImportMappings) (first second : Shape)
    (others : List Shape) : (union first second others).toType mappings =
      .union ((first :: second :: others).map (toType mappings)) := by
  rw [toType, shapesToTypes_eq_map, List.map_cons, List.map_cons]

theorem Shape.toType_object (mappings : ImportMappings) (record : ObjectShape) :
    (object record).toType mappings = record.toType mappings := by
  rw [toType, Record.toType]

theorem Record.toType_eq (mappings : ImportMappings) (record : ObjectShape) :
    record.toType mappings = .object (record.properties.map fun property =>
      ⟨property.name, property.type.toType mappings, !property.required⟩) := by
  rw [Record.toType, propertiesToFields_eq_map]

theorem TypeScript.Ty.at?_reference (mappings : ImportMappings) (reference : Reference)
    (step : Step) (path : List Step) : (reference.toType mappings).at? (step :: path) = none := by
  unfold Reference.toType
  split <;> simp [at?]

/-- What is at a position of a shape is rendered at the same position of its type. -/
theorem Shape.at?_toType (mappings : ImportMappings) (shape : Shape) (path : List Step) :
    (shape.toType mappings).at? path = (shape.at? path).map (toType mappings) := by
  induction path generalizing shape with
  | nil => simp [Ty.at?, at?]
  | cons step path ih =>
      cases shape with
      | array items =>
          rw [toType]
          cases step with
          | items => exact ih items
          | option | field => rfl
      | union first second others =>
          rw [toType_union]
          cases step with
          | option index =>
              simp only [Ty.at?, at?, List.getElem?_map]
              cases (first :: second :: others)[index]? with
              | none => rfl
              | some option => exact ih option
          | items | field => rfl
      | object record =>
          rw [toType_object, Record.toType_eq]
          cases step with
          | field index =>
              simp only [Ty.at?, at?, List.getElem?_map]
              cases record.properties[index]? with
              | none => rfl
              | some property => exact ih property.type
          | items | option => rfl
      | reference reference =>
          rw [toType, Ty.at?_reference]
          simp [at?]
      | formatted format target => cases target <;> simp [toType, FormatTarget.toType, Ty.at?, at?]
      | string | number | boolean | constant => simp [toType, Ty.at?, at?]

/-- Whatever is qualified is qualified as one of the imports says. -/
theorem Shape.exists_of_at?_qualified {mappings : ImportMappings} {shape : Shape}
    {path : List Step} {scope name : String}
    (hat : (shape.toType mappings).at? path = some (.qualified scope name)) :
    ∃ entry ∈ mappings.entries, entry.2.qualifier = scope := by
  rw [at?_toType, Option.map_eq_some_iff] at hat
  obtain ⟨inner, -, htype⟩ := hat
  cases inner with
  | reference reference =>
      rw [toType, Reference.toType] at htype
      split at htype
      next mapping hmapping =>
        obtain ⟨space, -, hspace⟩ := Option.bind_eq_some_iff.mp hmapping
        obtain ⟨before, after, heq, -⟩ := List.lookup_eq_some_iff.mp hspace
        obtain ⟨rfl, -⟩ := Ty.qualified.inj htype
        exact ⟨(space, mapping), by simp [heq], rfl⟩
      next => cases htype
  | union first second others =>
      rw [toType_union] at htype
      cases htype
  | formatted format target => cases target <;> cases htype
  | string | number | boolean | constant | object | array => cases htype

theorem Shape.at?_toType_shared_qualified {shape : Shape} {path : List Step} {scope name : String}
    (hat : (shape.toType .shared).at? path = some (.qualified scope name)) :
    scope = sharedAlias := by
  obtain ⟨entry, hentry, rfl⟩ := exists_of_at?_qualified hat
  rw [List.mem_singleton.mp (show entry ∈ [("$defs", _)] from hentry)]

/-- Without imports nothing is qualified. -/
theorem Shape.at?_toType_empty_ne_qualified (shape : Shape) (path : List Step)
    (scope name : String) : (shape.toType .empty).at? path ≠ some (.qualified scope name) := by
  intro hat
  obtain ⟨entry, hentry, -⟩ := exists_of_at?_qualified hat
  cases hentry

section Definitions

/-- The path of a definition. -/
def definitionPath (name : String) : String := "#/$defs/" ++ name

theorem segments_definitionPath {name : String} (hname : '/' ∉ name.toList) :
    Text.segments (definitionPath name) = ["#", "$defs", name] := by
  have hpath : definitionPath name = "#/$defs" ++ "/" ++ name := by
    unfold definitionPath
    rw [String.append_assoc]
    rfl
  have hspace : Text.segments "#/$defs" = ["#", "$defs"] := by decide
  rw [hpath, Text.segments_append_slash, hspace, Text.segments,
    Text.splitOn_of_not_mem hname, List.map_singleton, String.ofList_toList]
  rfl

theorem Reference.toType_shared {name : String} (hname : '/' ∉ name.toList) :
    Reference.toType .shared ⟨definitionPath name⟩ = .qualified sharedAlias name := by
  unfold toType scope? Reference.name
  rw [segments_definitionPath hname]
  rfl

theorem Reference.toType_empty {name : String} (hname : '/' ∉ name.toList) :
    Reference.toType .empty ⟨definitionPath name⟩ = .name name := by
  unfold toType scope? Reference.name
  rw [segments_definitionPath hname]
  rfl

end Definitions

/-- A fragment refers to a path at a position of its type. Listed values take the
place of the type that they are listed for, and a single alternative is at the
position of its union. -/
inductive Fragment.RefersAt (target : String) : Fragment → List Step → Prop where
  | here {fragment : Fragment} (hkind : fragment.kind = .ok (.reference target)) :
      RefersAt target fragment []
  | items {fragment items : Fragment} {path : List Step}
      (hkind : fragment.kind = .ok .array) (hallowed : fragment.keywords.allowed = none)
      (hitems : fragment.items = some items) (hpath : RefersAt target items path) :
      RefersAt target fragment (.items :: path)
  | only {fragment option : Fragment} {path : List Step}
      (hkind : fragment.kind = .ok .union) (hoptions : fragment.oneOf = some [option])
      (hpath : RefersAt target option path) : RefersAt target fragment path
  | option {fragment option : Fragment} {options : List Fragment} {index : Nat}
      {path : List Step} (hkind : fragment.kind = .ok .union)
      (hoptions : fragment.oneOf = some options) (hseveral : 1 < options.length)
      (hoption : options[index]? = some option) (hpath : RefersAt target option path) :
      RefersAt target fragment (.option index :: path)
  | property {fragment : Fragment} {entries : List (String × Fragment)} {index : Nat}
      {entry : String × Fragment} {path : List Step} (hkind : fragment.kind = .ok .object)
      (hallowed : fragment.keywords.allowed = none) (hentries : fragment.properties = some entries)
      (hentry : entries[index]? = some entry) (hpath : RefersAt target entry.2 path) :
      RefersAt target fragment (.field index :: path)

/-- The shape of a fragment has the reference at the same position. -/
theorem Shape.at?_of_refersAt {formats : FormatRegistry} {fragment : Fragment} {target : String}
    {path : List Step} (hrefers : fragment.RefersAt target path) {shape : Shape}
    (hshape : ofFragment formats fragment = .ok shape) :
    shape.at? path = some (.reference ⟨target⟩) := by
  induction hrefers generalizing shape with
  | here hkind =>
      rw [ofFragment_of_reference hkind] at hshape
      obtain rfl := Except.ok.inj hshape
      simp [at?]
  | items hkind hallowed hitems _ ih =>
      rw [ofFragment_of_array hkind hallowed hitems] at hshape
      obtain ⟨inner, hinner, hshape⟩ := bind_eq_ok_iff.mp hshape
      obtain rfl := Except.ok.inj hshape
      exact ih (inContext_eq_ok_iff.mp hinner)
  | only hkind hoptions _ ih =>
      rw [ofFragment_of_union hkind hoptions] at hshape
      obtain ⟨shapes, hshapes, hshape⟩ := bind_eq_ok_iff.mp hshape
      obtain ⟨inner, hget, hinner⟩ := exists_getElem?_of_mapM hshapes List.getElem?_cons_zero
      have hlength := (mapM_eq_ok_iff.mp hshapes).length_eq
      rcases unionOf_eq_ok hshape with rfl | ⟨first, second, others, rfl, rfl⟩
      · obtain rfl := Option.some.inj hget
        exact ih hinner
      · simp at hlength
  | option hkind hoptions hseveral hoption _ ih =>
      rw [ofFragment_of_union hkind hoptions] at hshape
      obtain ⟨shapes, hshapes, hshape⟩ := bind_eq_ok_iff.mp hshape
      obtain ⟨inner, hget, hinner⟩ := exists_getElem?_of_mapM hshapes hoption
      have hlength := (mapM_eq_ok_iff.mp hshapes).length_eq
      rcases unionOf_eq_ok hshape with rfl | ⟨first, second, others, rfl, rfl⟩
      · simp only [List.length_cons, List.length_nil] at hlength
        omega
      · rw [at?, hget]
        exact ih hinner
  | property hkind hallowed hentries hentry _ ih =>
      rw [ofFragment_of_object hkind hallowed] at hshape
      obtain ⟨record, hrecord, hshape⟩ := bind_eq_ok_iff.mp hshape
      obtain rfl := Except.ok.inj hshape
      unfold Record.ofFragment at hrecord
      rw [hentries, Option.getD_some, ofProperties_eq_mapM] at hrecord
      obtain ⟨properties, hproperties, hrecord⟩ := bind_eq_ok_iff.mp hrecord
      obtain rfl := Except.ok.inj hrecord
      obtain ⟨property, hget, hproperty⟩ := exists_getElem?_of_mapM hproperties hentry
      obtain ⟨type, htype, hproperty⟩ := bind_eq_ok_iff.mp hproperty
      obtain rfl := Except.ok.inj hproperty
      rw [at?, hget]
      exact ih (inContext_eq_ok_iff.mp htype)

end TrackingPlan
