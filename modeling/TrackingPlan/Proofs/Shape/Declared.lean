import TrackingPlan.Proofs.Shape.Flaws

/-!
# Declared shapes

A fragment declares a shape by its construct: properties under their names and in
their order, alternatives in their order, and a constant for each listed value. The
shape that a fragment has is the one that it declares.
-/

namespace TrackingPlan

/-- In lists of one length, whatever is in the second has a partner in the first. -/
theorem exists_getElem?_of_mem {α β : Type} {items : List α} {images : List β}
    (hlength : items.length = images.length) {image : β} (himage : image ∈ images) :
    ∃ (index : Nat) (item : α), items[index]? = some item ∧ images[index]? = some image := by
  obtain ⟨index, hindex, rfl⟩ := List.mem_iff_getElem.mp himage
  have hitem := List.getElem?_eq_getElem (hlength ▸ hindex)
  exact ⟨index, _, hitem, List.getElem?_eq_getElem hindex⟩

/-- The literal that a constant is, and the type that it has. -/
inductive Constant.Means : Constant → Literal → Shape → Prop where
  | string (value : String) : Means (.string value) (.string value) (.string none)
  | integer {value : Int}
      (hvalue : -Literal.integerBound ≤ value ∧ value < Literal.integerBound) :
      Means (.integer value) (.integer (Int64.ofInt value)) (.number true none)
  | large {value : Int}
      (hvalue : ¬ (-Literal.integerBound ≤ value ∧ value < Literal.integerBound)) :
      Means (.integer value) (.float (.ofInt value)) (.number false none)
  | float (value : Binary64) : Means (.float value) (.float value) (.number false none)

namespace Fragment

/-- The properties of a fragment as they are written. -/
def entries (fragment : Fragment) : List (String × Fragment) := fragment.properties.getD []

/-- The names that a fragment says are required, whether there are such properties or not. -/
def requiredNames (fragment : Fragment) : List String := fragment.keywords.required.getD []

/-- The shape that a fragment declares, by the construct that it is. -/
inductive Declares (formats : FormatRegistry) : Fragment → Shape → Prop where
  | constant {fragment : Fragment} {value : Constant} {literal : Literal} {base : Shape}
      (hkind : fragment.kind = .ok (.constant value)) (hmeans : value.Means literal base) :
      Declares formats fragment (.constant literal base)
  | scalar {fragment : Fragment} {kind : Kind} {shape : Shape}
      (hkind : fragment.kind = .ok kind) (hallowed : fragment.keywords.allowed = none)
      (hscalar : Shape.ofScalar? formats fragment.keywords.format kind = some shape) :
      Declares formats fragment shape
  | object {fragment : Fragment} {properties : List (Property Shape)}
      (hkind : fragment.kind = .ok .object) (hallowed : fragment.keywords.allowed = none)
      (hnames : properties.map (·.name) = fragment.entries.map Prod.fst)
      (hrequired : ∀ property ∈ properties,
        property.required = true ↔ property.name ∈ fragment.requiredNames)
      (htypes : ∀ (index : Nat) entry property, fragment.entries[index]? = some entry →
        properties[index]? = some property → Declares formats entry.2 property.type) :
      Declares formats fragment
        (.object ⟨properties, Shape.allowsAdditional fragment.additional⟩)
  | array {fragment items : Fragment} {inner : Shape}
      (hkind : fragment.kind = .ok .array) (hallowed : fragment.keywords.allowed = none)
      (hitems : fragment.items = some items) (hinner : Declares formats items inner) :
      Declares formats fragment (.array inner)
  | reference {fragment : Fragment} {path : String}
      (hkind : fragment.kind = .ok (.reference path)) :
      Declares formats fragment (.reference ⟨path⟩)
  /-- A single alternative stands for itself. -/
  | only {fragment option : Fragment} {shape : Shape}
      (hkind : fragment.kind = .ok .union) (hoptions : fragment.oneOf = some [option])
      (hoption : Declares formats option shape) : Declares formats fragment shape
  | options {fragment : Fragment} {options : List Fragment} {first second : Shape}
      {others : List Shape} (hkind : fragment.kind = .ok .union)
      (hoptions : fragment.oneOf = some options)
      (hlength : options.length = (first :: second :: others).length)
      (himages : ∀ (index : Nat) option image, options[index]? = some option →
        (first :: second :: others)[index]? = some image → Declares formats option image) :
      Declares formats fragment (.union first second others)
  /-- A single listed value is a constant of the type that it is listed for. -/
  | value {fragment : Fragment} {value : Literal} {base : Shape} (htyped : fragment.IsTyped)
      (hallowed : fragment.keywords.allowed = some [value]) (hvalue : value.IsFinite)
      (hbase : Declares formats fragment.unlisted base) :
      Declares formats fragment (.constant value base)
  | values {fragment : Fragment} {first second : Literal} {others : List Literal} {base : Shape}
      (htyped : fragment.IsTyped)
      (hallowed : fragment.keywords.allowed = some (first :: second :: others))
      (hvalues : ∀ value ∈ first :: second :: others, value.IsFinite)
      (hbase : Declares formats fragment.unlisted base) :
      Declares formats fragment
        (.union (.constant first base) (.constant second base) (others.map (.constant · base)))

section Declares

variable {formats : FormatRegistry} {fragment : Fragment} {shape : Shape}

theorem ofConstant_eq_ok_iff {value : Constant} :
    Shape.ofConstant value = .ok shape ↔
      ∃ literal base, value.Means literal base ∧ shape = .constant literal base := by
  constructor
  · intro hshape
    cases value with
    | string value => exact ⟨_, _, .string value, (Except.ok.inj hshape).symm⟩
    | integer value =>
        rw [Shape.ofConstant] at hshape
        split at hshape
        next hvalue => exact ⟨_, _, .integer hvalue, (Except.ok.inj hshape).symm⟩
        next hvalue => exact ⟨_, _, .large hvalue, (Except.ok.inj hshape).symm⟩
    | float value => exact ⟨_, _, .float value, (Except.ok.inj hshape).symm⟩
    | _ => cases hshape
  · rintro ⟨literal, base, hmeans, rfl⟩
    cases hmeans with
    | string | float => rfl
    | integer hvalue => exact if_pos hvalue
    | large hvalue => exact if_neg hvalue

/-- Property by property, an object is read as it is declared. -/
theorem ofProperties_eq_ok_iff {required : List String} {entries : List (String × Fragment)}
    {properties : List (Property Shape)} :
    Shape.ofProperties formats required entries = .ok properties ↔
      properties.map (·.name) = entries.map Prod.fst ∧
      (∀ property ∈ properties, property.required = true ↔ property.name ∈ required) ∧
      ∀ (index : Nat) entry property, entries[index]? = some entry →
        properties[index]? = some property →
        Shape.ofFragment formats entry.2 = .ok property.type := by
  rw [Shape.ofProperties_eq_mapM, mapM_eq_ok_iff_getElem?]
  simp only [bind_eq_ok_iff, inContext_eq_ok_iff, pure, Except.pure, Except.ok.injEq]
  constructor
  · rintro ⟨hlength, hread⟩
    refine ⟨List.ext_getElem (by simpa using hlength.symm) ?_, ?_, ?_⟩
    · intro index hproperty hentry
      rw [List.length_map] at hproperty hentry
      obtain ⟨type, -, hsame⟩ := hread index _ _ (List.getElem?_eq_getElem hentry)
        (List.getElem?_eq_getElem hproperty)
      simp only [List.getElem_map, ← hsame]
    · intro property hmem
      obtain ⟨index, entry, hentry, hproperty⟩ := exists_getElem?_of_mem hlength hmem
      obtain ⟨type, -, rfl⟩ := hread index _ _ hentry hproperty
      simp
    · intro index entry property hentry hproperty
      obtain ⟨type, htype, rfl⟩ := hread index _ _ hentry hproperty
      exact htype
  · rintro ⟨hnames, hrequired, htypes⟩
    have hlength := congrArg List.length hnames
    rw [List.length_map, List.length_map] at hlength
    refine ⟨hlength.symm, fun index entry property hentry hproperty => ?_⟩
    have hname : property.name = entry.1 := by
      have hget := congrArg (·[index]?) hnames
      simpa [hentry, hproperty] using hget
    refine ⟨property.type, htypes index entry property hentry hproperty, ?_⟩
    have hmem := hrequired property (List.mem_of_getElem? hproperty)
    obtain ⟨name, type, isRequired⟩ := property
    obtain rfl : name = entry.1 := hname
    congr 1
    rw [Bool.eq_iff_iff, List.contains_iff_mem]
    exact hmem.symm

/-- A type that no values are listed for has the shape that it declares. -/
theorem declares_unlisted {kind : Kind} (hkind : fragment.kind = .ok kind)
    (htyped : kind.isTyped = true)
    (hparts : ∀ part ∈ fragment.parts, ∀ shape, Shape.ofFragment formats part.2 = .ok shape →
      Declares formats part.2 shape)
    (hshape : Shape.ofFragment formats fragment.unlisted = .ok shape) :
    Declares formats fragment.unlisted shape := by
  have hunlisted : fragment.unlisted.kind = .ok kind := hkind
  cases kind with
  | string | number | integer | boolean =>
      rw [Shape.ofFragment_of_scalar hunlisted rfl rfl] at hshape
      obtain rfl := Except.ok.inj hshape
      exact .scalar hunlisted rfl rfl
  | object =>
      rw [Shape.ofFragment_of_object hunlisted rfl] at hshape
      obtain ⟨record, hrecord, hshape⟩ := bind_eq_ok_iff.mp hshape
      obtain rfl := Except.ok.inj hshape
      obtain ⟨properties, hproperties, hrecord⟩ := bind_eq_ok_iff.mp hrecord
      obtain rfl := Except.ok.inj hrecord
      obtain ⟨hnames, hrequired, htypes⟩ := ofProperties_eq_ok_iff.mp hproperties
      refine .object hunlisted rfl hnames hrequired fun index entry property hentry hproperty => ?_
      have hpart := mem_parts_of_property hkind (List.mem_of_getElem? hentry)
      exact hparts _ hpart _ (htypes index _ _ hentry hproperty)
  | array =>
      cases hitems : fragment.items with
      | none =>
          rw [Shape.ofFragment_of_no_items hunlisted hitems] at hshape
          cases hshape
      | some items =>
          rw [Shape.ofFragment_of_array hunlisted rfl hitems] at hshape
          obtain ⟨inner, hinner, hshape⟩ := bind_eq_ok_iff.mp hshape
          obtain rfl := Except.ok.inj hshape
          have hpart := mem_parts_of_items hkind hitems
          exact .array hunlisted rfl hitems (hparts _ hpart _ (inContext_eq_ok_iff.mp hinner))
  | _ => cases htyped

/-- Listed values are constants of the type that they are listed for. -/
theorem declares_of_restrict {base : Shape} (htyped : fragment.IsTyped)
    (hbase : Declares formats fragment.unlisted base)
    (hshape : Shape.restrict fragment.keywords.allowed base = .ok shape) :
    Declares formats fragment shape := by
  cases hallowed : fragment.keywords.allowed with
  | none =>
      rw [hallowed] at hshape
      obtain rfl := Except.ok.inj hshape
      rwa [unlisted_of_allowed hallowed] at hbase
  | some values =>
      rw [hallowed] at hshape
      obtain ⟨hfinite, hunion⟩ := Shape.enumeration_eq_ok_iff.mp hshape
      rcases Shape.unionOf_eq_ok hunion with hone | ⟨_, _, _, hmany, rfl⟩
      · obtain ⟨value, rfl, rfl⟩ := List.map_eq_singleton_iff.mp hone
        exact .value htyped hallowed (hfinite value List.mem_cons_self) hbase
      · obtain ⟨first, _, rfl, rfl, hrest⟩ := List.map_eq_cons_iff.mp hmany
        obtain ⟨second, others, rfl, rfl, rfl⟩ := List.map_eq_cons_iff.mp hrest
        exact .values htyped hallowed hfinite hbase

theorem declares_of_ofFragment (hshape : Shape.ofFragment formats fragment = .ok shape) :
    Declares formats fragment shape := by
  induction fragment using visits.induct generalizing shape with
  | case1 fragment ih =>
      cases hkind : fragment.kind with
      | error fault =>
          rw [Shape.ofFragment_of_error hkind] at hshape
          cases hshape
      | ok kind =>
          have hparts : ∀ part ∈ fragment.parts, ∀ shape,
              Shape.ofFragment formats part.2 = .ok shape → Declares formats part.2 shape :=
            fun part hpart shape => ih ⟨part, hpart⟩
          by_cases htyped : kind.isTyped = true
          · rw [Shape.ofFragment_of_typed hkind htyped] at hshape
            obtain ⟨base, hbase, hshape⟩ := bind_eq_ok_iff.mp hshape
            have hdeclares := declares_unlisted hkind htyped hparts hbase
            exact declares_of_restrict ⟨kind, hkind, htyped⟩ hdeclares hshape
          · cases kind with
            | constant value =>
                rw [Shape.ofFragment_of_constant hkind] at hshape
                obtain ⟨literal, base, hmeans, rfl⟩ := ofConstant_eq_ok_iff.mp hshape
                exact .constant hkind hmeans
            | reference path =>
                rw [Shape.ofFragment_of_reference hkind] at hshape
                obtain rfl := Except.ok.inj hshape
                exact .reference hkind
            | union =>
                obtain ⟨options, hoptions⟩ :=
                  Option.isSome_iff_exists.mp (hasOptions_of_kindOf hkind)
                rw [Shape.ofFragment_of_union hkind hoptions] at hshape
                obtain ⟨images, himages, hshape⟩ := bind_eq_ok_iff.mp hshape
                obtain ⟨hlength, hread⟩ := mapM_eq_ok_iff_getElem?.mp himages
                have hdeclares : ∀ (index : Nat) option image, options[index]? = some option →
                    images[index]? = some image → Declares formats option image := by
                  intro index option image hoption himage
                  have hpart := mem_parts_of_option hkind hoptions (List.mem_of_getElem? hoption)
                  exact hparts _ hpart _ (hread index _ _ hoption himage)
                rcases Shape.unionOf_eq_ok hshape with rfl | ⟨first, second, others, rfl, rfl⟩
                · obtain ⟨option, rfl⟩ := List.length_eq_one_iff.mp hlength
                  exact .only hkind hoptions (hdeclares 0 _ _ rfl rfl)
                · exact .options hkind hoptions hlength hdeclares
            | _ => exact absurd rfl htyped

theorem Declares.ofFragment (hdeclares : Declares formats fragment shape) :
    Shape.ofFragment formats fragment = .ok shape := by
  induction hdeclares with
  | constant hkind hmeans =>
      rw [Shape.ofFragment_of_constant hkind]
      exact ofConstant_eq_ok_iff.mpr ⟨_, _, hmeans, rfl⟩
  | scalar hkind hallowed hscalar => exact Shape.ofFragment_of_scalar hkind hallowed hscalar
  | object hkind hallowed hnames hrequired _ ih =>
      have hproperties := ofProperties_eq_ok_iff.mpr ⟨hnames, hrequired, ih⟩
      rw [Shape.ofFragment_of_object hkind hallowed, Record.ofFragment]
      exact bind_eq_ok_iff.mpr ⟨_, bind_eq_ok_iff.mpr ⟨_, hproperties, rfl⟩, rfl⟩
  | array hkind hallowed hitems _ ih =>
      rw [Shape.ofFragment_of_array hkind hallowed hitems, ih]
      rfl
  | reference hkind => exact Shape.ofFragment_of_reference hkind
  | only hkind hoptions _ ih =>
      rw [Shape.ofFragment_of_union hkind hoptions]
      exact bind_eq_ok_iff.mpr ⟨[_], by rw [List.mapM_cons, ih]; rfl, rfl⟩
  | options hkind hoptions hlength _ ih =>
      rw [Shape.ofFragment_of_union hkind hoptions]
      exact bind_eq_ok_iff.mpr ⟨_, mapM_eq_ok_iff_getElem?.mpr ⟨hlength, ih⟩, rfl⟩
  | value htyped hallowed hvalue _ ih =>
      obtain ⟨kind, hkind, htyped⟩ := htyped
      rw [Shape.ofFragment_of_typed hkind htyped, ih, hallowed]
      exact Shape.enumeration_eq_ok_iff.mpr ⟨by simpa using hvalue, rfl⟩
  | values htyped hallowed hvalues _ ih =>
      obtain ⟨kind, hkind, htyped⟩ := htyped
      rw [Shape.ofFragment_of_typed hkind htyped, ih, hallowed]
      exact Shape.enumeration_eq_ok_iff.mpr ⟨hvalues, rfl⟩

end Declares

theorem declares_iff {formats : FormatRegistry} {fragment : Fragment} {shape : Shape} :
    Declares formats fragment shape ↔ Shape.ofFragment formats fragment = .ok shape :=
  ⟨Declares.ofFragment, declares_of_ofFragment⟩

end Fragment

end TrackingPlan
