import TrackingPlan.Proofs.Shape.Listed

/-!
# Formats in shapes

A registry decides how a string with a format is rendered, and nothing else. The
shape of a fragment without its formats is the shape under the empty registry,
and each string in it is formatted as the registry says for the format that the
fragment has at its place.
-/

namespace TrackingPlan

namespace Shape

mutual

/-- The shape with all formatted strings as strings that only have the format. -/
def withoutFormats : Shape → Shape
  | .string format => .string format
  | .formatted format _ => .string (some format)
  | .number isInteger format => .number isInteger format
  | .boolean => .boolean
  | .constant value base => .constant value base.withoutFormats
  | .union first second others =>
    .union first.withoutFormats second.withoutFormats (shapesWithoutFormats others)
  | .object ⟨properties, additional⟩ => .object ⟨propertiesWithoutFormats properties, additional⟩
  | .array items => .array items.withoutFormats
  | .reference target => .reference target

def shapesWithoutFormats : List Shape → List Shape
  | [] => []
  | shape :: rest => shape.withoutFormats :: shapesWithoutFormats rest

def propertiesWithoutFormats : List (Property Shape) → List (Property Shape)
  | [] => []
  | ⟨name, type, required⟩ :: rest =>
    ⟨name, type.withoutFormats, required⟩ :: propertiesWithoutFormats rest

end

mutual

/-- The strings in a shape from left to right, those of the bases of constants included, with
their formats and what these are rendered as. -/
def strings : Shape → List (Option String × Option FormatTarget)
  | .string format => [(format, none)]
  | .formatted format target => [(some format, some target)]
  | .number .. => []
  | .boolean => []
  | .constant _ base => base.strings
  | .union first second others => first.strings ++ (second.strings ++ shapesStrings others)
  | .object ⟨properties, _⟩ => propertiesStrings properties
  | .array items => items.strings
  | .reference _ => []

def shapesStrings : List Shape → List (Option String × Option FormatTarget)
  | [] => []
  | shape :: rest => shape.strings ++ shapesStrings rest

def propertiesStrings : List (Property Shape) → List (Option String × Option FormatTarget)
  | [] => []
  | ⟨_, type, _⟩ :: rest => type.strings ++ propertiesStrings rest

end

theorem shapesWithoutFormats_eq_map (shapes : List Shape) :
    shapesWithoutFormats shapes = shapes.map withoutFormats := by
  induction shapes with
  | nil => rfl
  | cons shape rest ih => rw [shapesWithoutFormats, ih, List.map_cons]

theorem propertiesWithoutFormats_eq_map (properties : List (Property Shape)) :
    propertiesWithoutFormats properties =
      properties.map fun property => { property with type := property.type.withoutFormats } := by
  induction properties with
  | nil => rfl
  | cons property rest ih => rw [propertiesWithoutFormats, ih, List.map_cons]

theorem shapesStrings_eq_flatMap (shapes : List Shape) :
    shapesStrings shapes = shapes.flatMap strings := by
  induction shapes with
  | nil => rfl
  | cons shape rest ih => rw [shapesStrings, ih, List.flatMap_cons]

theorem propertiesStrings_eq_flatMap (properties : List (Property Shape)) :
    propertiesStrings properties = properties.flatMap fun property => property.type.strings := by
  induction properties with
  | nil => rfl
  | cons property rest ih => rw [propertiesStrings, ih, List.flatMap_cons]

theorem strings_union (first second : Shape) (others : List Shape) :
    (union first second others).strings = (first :: second :: others).flatMap strings := by
  rw [strings, shapesStrings_eq_flatMap, List.flatMap_cons, List.flatMap_cons]

end Shape

/-- Listed values are told apart with the type that they are listed for, each of them. -/
def Keywords.perValue {α : Type} (keywords : Keywords) (parts : List α) : List α :=
  match keywords.allowed with
  | some values => values.flatMap fun _ => parts
  | .none => parts

mutual

/-- The formats of the strings that a fragment stands for, from left to right. -/
def Fragment.stringFormats : Fragment → List (Option String)
  | ⟨keywords, oneOf, properties, _, items⟩ =>
    match Fragment.kindOf keywords oneOf.isSome with
    | .ok (.constant (.string _)) => [none]
    | .ok .string => keywords.perValue [keywords.format]
    | .ok .object => keywords.perValue <|
      match properties with
      | some entries => entriesStringFormats entries
      | none => []
    | .ok .array => keywords.perValue <|
      match items with
      | some items => items.stringFormats
      | none => []
    | .ok .union =>
      match oneOf with
      | some options => fragmentsStringFormats options
      | none => []
    | _ => []

def fragmentsStringFormats : List Fragment → List (Option String)
  | [] => []
  | fragment :: rest => fragment.stringFormats ++ fragmentsStringFormats rest

def entriesStringFormats : List (String × Fragment) → List (Option String)
  | [] => []
  | (_, fragment) :: rest => fragment.stringFormats ++ entriesStringFormats rest

end

/-- A format with what a string of it is rendered as. -/
def FormatRegistry.rendered (formats : FormatRegistry) (format : Option String) :
    Option String × Option FormatTarget :=
  (format, format.bind formats.resolve?)

namespace Shape

section WithoutFormats

variable (formats : FormatRegistry)

theorem withoutFormats_ofFormat (format : Option String) :
    (ofFormat formats format).withoutFormats = ofFormat .empty format := by
  cases format with
  | none => rfl
  | some format =>
      rw [ofFormat]
      split <;> rfl

theorem map_withoutFormats_ofConstant (value : Constant) :
    (ofConstant value).map withoutFormats = ofConstant value := by
  cases value with
  | integer value =>
      rw [ofConstant]
      split <;> rfl
  | _ => rfl

theorem map_withoutFormats_unionOf (options : List Shape) :
    (unionOf options).map withoutFormats = unionOf (options.map withoutFormats) := by
  rcases options with _ | ⟨first, _ | ⟨second, others⟩⟩
  · rfl
  · rfl
  · rw [unionOf, List.map_cons, List.map_cons, unionOf, ← shapesWithoutFormats_eq_map]
    rfl

theorem map_withoutFormats_enumeration (values : List Literal) (base : Shape) :
    (enumeration values base).map withoutFormats = enumeration values base.withoutFormats := by
  have hvalue : ∀ value ∈ values, (allowedValue base value).map withoutFormats =
      allowedValue base.withoutFormats value := by
    intro value _
    cases value with
    | float value =>
        rw [allowedValue]
        split <;> simp_all [allowedValue, Except.map, withoutFormats]
    | _ => rfl
  refine map_bind_eq (map_mapM_eq hvalue) fun options => ?_
  rcases options with _ | ⟨first, _ | ⟨second, others⟩⟩
  · rfl
  · rfl
  · exact map_withoutFormats_unionOf (first :: second :: others)

theorem map_withoutFormats_restrict (allowed : Option (List Literal)) (base : Shape) :
    (restrict allowed base).map withoutFormats = restrict allowed base.withoutFormats := by
  cases allowed with
  | none => rfl
  | some values => exact map_withoutFormats_enumeration values base

theorem map_withoutFormats_ofFragments {fragments : List Fragment}
    (hfragments : ∀ fragment ∈ fragments,
      (ofFragment formats fragment).map withoutFormats = ofFragment .empty fragment) :
    (ofFragments formats fragments).map (List.map withoutFormats) =
      ofFragments .empty fragments := by
  rw [ofFragments_eq_mapM, ofFragments_eq_mapM]
  exact map_mapM_eq hfragments

theorem map_withoutFormats_ofProperties (required : List String)
    {entries : List (String × Fragment)}
    (hentries : ∀ entry ∈ entries,
      (ofFragment formats entry.2).map withoutFormats = ofFragment .empty entry.2) :
    (ofProperties formats required entries).map propertiesWithoutFormats =
      ofProperties .empty required entries := by
  rw [ofProperties_eq_mapM, ofProperties_eq_mapM, funext propertiesWithoutFormats_eq_map]
  refine map_mapM_eq fun entry hentry => ?_
  have htype : (inContext ("property `" ++ entry.1 ++ "`") (ofFragment formats entry.2)).map
      withoutFormats = inContext ("property `" ++ entry.1 ++ "`") (ofFragment .empty entry.2) := by
    rw [map_inContext, hentries entry hentry]
  exact map_bind_eq htype fun type => rfl

/-- Without formats, a fragment has the shape that it has when no format is registered. -/
theorem map_withoutFormats_ofFragment (fragment : Fragment) :
    (ofFragment formats fragment).map withoutFormats = ofFragment .empty fragment := by
  induction fragment using Fragment.induction with
  | intro keywords oneOf properties additional items ihoptions ihproperties ihitems =>
      rw [ofFragment.eq_def, ofFragment.eq_def]
      dsimp only
      -- The construct does not depend on any registry.
      refine map_bind_eq (congrFun Except.map_id _) fun kind => ?_
      cases kind with
      | constant value => exact map_withoutFormats_ofConstant value
      | string =>
          refine (map_withoutFormats_restrict _ _).trans ?_
          rw [withoutFormats_ofFormat]
          rfl
      | number | integer | boolean => exact map_withoutFormats_restrict _ _
      | object =>
          cases properties with
          | none => exact map_withoutFormats_restrict _ _
          | some entries =>
              have hread := map_withoutFormats_ofProperties formats
                (keywords.required.getD []) (ihproperties entries rfl)
              exact map_bind_eq hread fun properties => map_withoutFormats_restrict _ _
      | array =>
          cases items with
          | none => rfl
          | some fragment =>
              have hread : (inContext "array items" (ofFragment formats fragment)).map
                  withoutFormats = inContext "array items" (ofFragment .empty fragment) := by
                rw [map_inContext, ihitems fragment rfl]
              exact map_bind_eq hread fun items => map_withoutFormats_restrict _ _
      | reference path => rfl
      | union =>
          cases oneOf with
          | none => rfl
          | some options =>
              have hread := map_withoutFormats_ofFragments formats (ihoptions options rfl)
              exact map_bind_eq hread map_withoutFormats_unionOf

end WithoutFormats

section Strings

variable {formats : FormatRegistry} {shape : Shape}

theorem strings_ofFormat (format : Option String) :
    (ofFormat formats format).strings = [formats.rendered format] := by
  cases format with
  | none => rfl
  | some format =>
      rw [ofFormat, FormatRegistry.rendered, Option.bind_some]
      cases formats.resolve? format <;> rfl

theorem strings_unionOf {options : List Shape} (hshape : unionOf options = .ok shape) :
    shape.strings = options.flatMap strings := by
  rcases unionOf_eq_ok hshape with rfl | ⟨first, second, others, rfl, rfl⟩
  · rw [List.flatMap_singleton]
  · exact strings_union first second others

theorem strings_enumeration {values : List Literal} {base : Shape}
    (hshape : enumeration values base = .ok shape) :
    shape.strings = values.flatMap fun _ => base.strings := by
  obtain ⟨-, hunion⟩ := enumeration_eq_ok_iff.mp hshape
  rw [strings_unionOf hunion, List.flatMap_map]
  simp only [strings]

/-- Every listed value has the strings of the type that it is listed for. -/
theorem strings_restrict {keywords : Keywords} {base : Shape} {known : List (Option String)}
    (hbase : base.strings = known.map formats.rendered)
    (hshape : restrict keywords.allowed base = .ok shape) :
    shape.strings = (keywords.perValue known).map formats.rendered := by
  unfold Keywords.perValue
  cases hallowed : keywords.allowed with
  | none =>
      rw [hallowed] at hshape
      obtain rfl := Except.ok.inj hshape
      exact hbase
  | some values =>
      rw [hallowed] at hshape
      rw [strings_enumeration hshape, hbase]
      exact (List.map_flatMap ..).symm

theorem perValue_nil {α : Type} (keywords : Keywords) :
    keywords.perValue ([] : List α) = [] := by
  unfold Keywords.perValue
  split <;> simp

theorem strings_ofConstant {value : Constant} (hshape : ofConstant value = .ok shape) :
    shape.strings = match value with
      | .string _ => [formats.rendered none]
      | _ => [] := by
  cases value with
  | string value =>
      obtain rfl := Except.ok.inj hshape
      rfl
  | integer value =>
      rw [ofConstant] at hshape
      split at hshape <;> (obtain rfl := Except.ok.inj hshape; rfl)
  | float value =>
      obtain rfl := Except.ok.inj hshape
      rfl
  | _ => cases hshape

theorem fragmentsStringFormats_eq_flatMap (fragments : List Fragment) :
    fragmentsStringFormats fragments = fragments.flatMap Fragment.stringFormats := by
  induction fragments with
  | nil => rfl
  | cons fragment rest ih => rw [fragmentsStringFormats, ih, List.flatMap_cons]

theorem entriesStringFormats_eq_flatMap (entries : List (String × Fragment)) :
    entriesStringFormats entries = entries.flatMap fun entry => entry.2.stringFormats := by
  induction entries with
  | nil => rfl
  | cons entry rest ih => rw [entriesStringFormats, ih, List.flatMap_cons]

theorem strings_ofFragments {fragments : List Fragment} {shapes : List Shape}
    (hread : ofFragments formats fragments = .ok shapes)
    (hfragments : ∀ fragment ∈ fragments, ∀ shape, ofFragment formats fragment = .ok shape →
      shape.strings = fragment.stringFormats.map formats.rendered) :
    shapes.flatMap strings = (fragmentsStringFormats fragments).map formats.rendered := by
  rw [ofFragments_eq_mapM] at hread
  rw [fragmentsStringFormats_eq_flatMap, List.map_flatMap, List.flatMap_def,
    map_eq_of_mem_mapM hread hfragments, ← List.flatMap_def]

theorem strings_ofProperties {required : List String} {entries : List (String × Fragment)}
    {properties : List (Property Shape)}
    (hread : ofProperties formats required entries = .ok properties)
    (hentries : ∀ entry ∈ entries, ∀ shape, ofFragment formats entry.2 = .ok shape →
      shape.strings = entry.2.stringFormats.map formats.rendered) :
    propertiesStrings properties = (entriesStringFormats entries).map formats.rendered := by
  rw [ofProperties_eq_mapM] at hread
  have hproperties : properties.map (fun property => property.type.strings) =
      entries.map fun entry => entry.2.stringFormats.map formats.rendered := by
    refine map_eq_of_mem_mapM hread fun entry hentry property hproperty => ?_
    obtain ⟨type, htype, hproperty⟩ := bind_eq_ok_iff.mp hproperty
    obtain rfl := Except.ok.inj hproperty
    exact hentries entry hentry type (inContext_eq_ok_iff.mp htype)
  rw [propertiesStrings_eq_flatMap, entriesStringFormats_eq_flatMap, List.map_flatMap,
    List.flatMap_def, hproperties, ← List.flatMap_def]

/-- The strings of a shape are those of its fragment, formatted as the registry says. -/
theorem strings_ofFragment {fragment : Fragment}
    (hshape : ofFragment formats fragment = .ok shape) :
    shape.strings = fragment.stringFormats.map formats.rendered := by
  induction fragment using Fragment.induction generalizing shape with
  | intro keywords oneOf properties additional items ihoptions ihproperties ihitems =>
      rw [ofFragment.eq_def] at hshape
      obtain ⟨kind, hkind, hshape⟩ := bind_eq_ok_iff.mp hshape
      rw [Fragment.stringFormats.eq_def]
      dsimp only
      rw [hkind]
      cases kind with
      | constant value =>
          rw [strings_ofConstant hshape]
          cases value <;> rfl
      | string => exact strings_restrict (strings_ofFormat _) hshape
      | number | integer | boolean =>
          rw [@strings_restrict formats shape keywords _ [] rfl hshape, perValue_nil]
      | object =>
          cases properties with
          | none => exact @strings_restrict formats shape keywords _ [] rfl hshape
          | some entries =>
              obtain ⟨properties, hread, hshape⟩ := bind_eq_ok_iff.mp hshape
              refine strings_restrict ?_ hshape
              rw [strings]
              exact strings_ofProperties hread fun entry hentry shape =>
                ihproperties entries rfl entry hentry
      | array =>
          cases items with
          | none => cases hshape
          | some fragment =>
              obtain ⟨inner, hinner, hshape⟩ := bind_eq_ok_iff.mp hshape
              refine strings_restrict ?_ hshape
              rw [strings]
              exact ihitems fragment rfl (inContext_eq_ok_iff.mp hinner)
      | reference path =>
          obtain rfl := Except.ok.inj hshape
          rfl
      | union =>
          cases oneOf with
          | none => cases hshape
          | some options =>
              obtain ⟨shapes, hread, hshape⟩ := bind_eq_ok_iff.mp hshape
              rw [strings_unionOf hshape]
              exact strings_ofFragments hread fun option hoption shape =>
                ihoptions options rfl option hoption

end Strings

end Shape

/-- The properties without formats. -/
def Record.withoutFormats (record : ObjectShape) : ObjectShape :=
  ⟨Shape.propertiesWithoutFormats record.properties, record.additional⟩

theorem Record.map_withoutFormats_ofFragment (formats : FormatRegistry) (fragment : Fragment) :
    (ofFragment formats fragment).map withoutFormats = ofFragment .empty fragment :=
  map_bind_eq (Shape.map_withoutFormats_ofProperties formats _ fun entry _ =>
    Shape.map_withoutFormats_ofFragment formats entry.2) fun _ => rfl

end TrackingPlan
