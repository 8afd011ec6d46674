import TrackingPlan.Proofs.Shape.Numbers
import TrackingPlan.Proofs.Shape.Positions

/-!
# Type texts of shapes

The type of a normalized shape is read from its text as it was meant, whatever
imports it is rendered for, if all names in it are names of types. A text stands
for one type only.
-/

namespace TrackingPlan

open TypeScript

mutual

/-- The names that the type of the shape is made of, without their qualifiers. -/
def Shape.typeNames : Shape → List String
  | .formatted _ (.named name) => [name]
  | .union first second others => first.typeNames ++ (second.typeNames ++ shapeNames others)
  | .object ⟨properties, _⟩ => propertyNames properties
  | .array items => items.typeNames
  | .reference reference => [reference.name]
  | _ => []

def shapeNames : List Shape → List String
  | [] => []
  | shape :: rest => shape.typeNames ++ shapeNames rest

def propertyNames : List (Property Shape) → List String
  | [] => []
  | ⟨_, type, _⟩ :: rest => type.typeNames ++ propertyNames rest

end

instance (letters : Letters) (name : String) : Decidable (letters.IsTypeName name) :=
  inferInstanceAs (Decidable (_ ∧ _))

/-- All names and aliases that the type may have in it are names of types. -/
structure Shape.IsNamed (letters : Letters) (mappings : ImportMappings) (shape : Shape) :
    Prop where
  names : ∀ name ∈ shape.typeNames, letters.IsTypeName name
  aliases : ∀ entry ∈ mappings.entries, letters.IsTypeName entry.2.qualifier

theorem shapeNames_eq_flatMap (shapes : List Shape) :
    shapeNames shapes = shapes.flatMap Shape.typeNames := by
  induction shapes with
  | nil => rfl
  | cons shape rest ih => rw [shapeNames, ih, List.flatMap_cons]

theorem propertyNames_eq_flatMap (properties : List (Property Shape)) :
    propertyNames properties = properties.flatMap fun property => property.type.typeNames := by
  induction properties with
  | nil => rfl
  | cons property rest ih => rw [propertyNames, ih, List.flatMap_cons]

section Reading

variable {letters : Letters} {mappings : ImportMappings}

theorem isProper_reference
    (haliases : ∀ entry ∈ mappings.entries, letters.IsTypeName entry.2.qualifier)
    {reference : Reference} (hname : letters.IsTypeName reference.name) :
    letters.IsProper (reference.toType mappings) := by
  unfold Reference.toType
  split
  next mapping hmapping =>
    obtain ⟨scope, -, hscope⟩ := Option.bind_eq_some_iff.mp hmapping
    obtain ⟨before, after, heq, -⟩ := List.lookup_eq_some_iff.mp hscope
    exact .qualified (haliases (scope, mapping) (by simp [heq])) hname
  next => exact .name hname

/-- A shape that can be printed has a proper type, if its names are names of types. -/
theorem Shape.IsPrintable.isProper_toType {shape : Shape} (hprintable : shape.IsPrintable)
    (hnamed : shape.IsNamed letters mappings) : letters.IsProper (shape.toType mappings) := by
  obtain ⟨hnames, haliases⟩ := hnamed
  induction hprintable with
  | string format => exact .primitive .string
  | formatted format target =>
      cases target with
      | date => exact .name ⟨rfl, rfl⟩
      | named name => exact .name (hnames name List.mem_cons_self)
  | number isInteger format => exact .primitive .number
  | boolean => exact .primitive .boolean
  | constant base hvalue => exact .literal hvalue
  | @union first second others _ ih =>
      rw [Shape.toType, ← shapesToTypes, ← shapesToTypes, shapesToTypes_eq_map]
      rw [typeNames, ← shapeNames, ← shapeNames, shapeNames_eq_flatMap] at hnames
      refine .union (by simp) fun type htype => ?_
      obtain ⟨option, hoption, rfl⟩ := List.mem_map.mp htype
      exact ih option hoption fun name hname =>
        hnames name (List.mem_flatMap.mpr ⟨option, hoption, hname⟩)
  | @object properties additional _ ih =>
      rw [Shape.toType, propertiesToFields_eq_map]
      rw [typeNames, propertyNames_eq_flatMap] at hnames
      refine .object fun field hfield => ?_
      obtain ⟨property, hproperty, rfl⟩ := List.mem_map.mp hfield
      exact ih property hproperty fun name hname =>
        hnames name (List.mem_flatMap.mpr ⟨property, hproperty, hname⟩)
  | @array items _ ih =>
      rw [Shape.toType]
      rw [typeNames] at hnames
      exact .array (ih hnames)
  | reference reference =>
      exact isProper_reference haliases (hnames _ List.mem_cons_self)

/-- The type of the shape of some fragment, rendered for some imports. -/
inductive IsRendered (letters : Letters) : Ty → Prop where
  | intro {formats : FormatRegistry} {fragment : Fragment} {shape : Shape}
      {mappings : ImportMappings} (hrange : fragment.InRange)
      (hshape : Shape.ofFragment formats fragment = .ok shape)
      (hnamed : shape.IsNamed letters mappings) : IsRendered letters (shape.toType mappings)

theorem IsRendered.isProper {type : Ty} (hrendered : IsRendered letters type) :
    letters.IsProper type := by
  obtain ⟨hrange, hshape, hnamed⟩ := hrendered
  exact (Shape.isPrintable_ofFragment hrange hshape).isProper_toType hnamed

/-- A rendered type is read from its text, all of it, as it was meant, and no type that
is meant otherwise is rendered as this text. -/
theorem IsRendered.reads_back {type : Ty} (hrendered : IsRendered letters type) :
    letters.typeOf? type.toText = some type.meant ∧
      ∀ other, IsRendered letters other → other.toText = type.toText →
        other.meant = type.meant := by
  have hread := hrendered.isProper.typeOf?_toText
  refine ⟨hread, fun other hother htext => ?_⟩
  have hotherRead := hother.isProper.typeOf?_toText
  rw [htext, hread] at hotherRead
  exact (Option.some.inj hotherRead).symm

end Reading

section Order

/-- No letters beyond ASCII. -/
def TypeScript.Letters.ascii : Letters := ⟨fun _ => false, fun _ => false⟩

def Fragment.leaf (keywords : Keywords) : Fragment := { Fragment.empty with keywords := keywords }

/-- An order: its items have texts or numbers as names, and its owner is a type of its own. -/
def orderFragment : Fragment :=
  let name : Fragment := .leaf { Keywords.none with type := some "string" }
  let number : Fragment := .leaf { Keywords.none with
    type := some "integer", allowed := some [.integer 1, .integer (-2)] }
  let owner : Fragment := .leaf { Keywords.none with reference := some "#/$defs/Owner" }
  let mark : Fragment := .leaf { Keywords.none with constant := some (.string "a \"b\" | c") }
  { Fragment.empty with
    keywords := { Keywords.none with type := some "object", required := some ["owner"] }
    properties := some [
      ("item ids", { Fragment.empty with
        keywords := { Keywords.none with type := some "array" }
        items := some { Fragment.empty with oneOf := some [name, number] } }),
      ("owner", owner), ("mark", mark)] }

theorem orderFragment_inRange : orderFragment.InRange := by
  simp [-Prod.forall, orderFragment, Fragment.inRange_mk_iff, Fragment.leaf, Fragment.empty,
    Keywords.none, Constant.InRange, Literal.InRange]

def orderShape : Shape :=
  let one : Shape := .constant (.integer 1) (.number true none)
  let minusTwo : Shape := .constant (.integer (-2)) (.number true none)
  .object ⟨[
    ⟨"item ids", .array (.union (.string none) (.union one minusTwo []) []), false⟩,
    ⟨"owner", .reference ⟨"#/$defs/Owner"⟩, true⟩,
    ⟨"mark", Shape.constantString "a \"b\" | c", false⟩], false⟩

theorem orderFragment_reads_back :
    Shape.ofFragment .standard orderFragment = .ok orderShape ∧
    (orderShape.toType .shared).toText = "\x7b \"item ids\"?: (string | 1 | -2)[]; " ++
      "owner: shared.Owner; mark?: \"a \\\"b\\\" | c\" \x7d" ∧
    Letters.ascii.typeOf? (orderShape.toType .shared).toText = some (.object [
      ⟨"item ids", .array (.union [.primitive .string, .number "1", .number "-2"]), true⟩,
      ⟨"owner", .qualified "shared" "Owner", false⟩,
      ⟨"mark", .text "a \"b\" | c", true⟩]) := by
  have hshape : Shape.ofFragment .standard orderFragment = .ok orderShape := by cbv
  have hnamed : orderShape.IsNamed Letters.ascii .shared := ⟨by decide, by decide⟩
  exact ⟨hshape, by rfl, (IsRendered.intro orderFragment_inRange hshape hnamed).reads_back.1⟩

end Order

end TrackingPlan
