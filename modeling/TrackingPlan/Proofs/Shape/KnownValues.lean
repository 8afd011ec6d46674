import TrackingPlan.Proofs.Shape.Normal
import TrackingPlan.Proofs.Shape.Positions
import TrackingPlan.Proofs.TypeScript.Inhabits

/-!
# Known values

The literal of a shape holds the constants that properties lead to and nothing
else: objects without a constant below them are left out at every depth. It is
an expression of the type of the shape once all properties of the type are
optional.
-/

namespace TrackingPlan

open TypeScript

/-- Properties alone lead from the shape to a constant. -/
def Shape.ReachesConstant (shape : Shape) : Prop :=
  ∃ (indices : List Nat) (value : Literal) (base : Shape),
    shape.at? (indices.map Step.field) = some (.constant value base)

section Reaching

/-- Only a constant, or an object with a property that leads to one, leads to a constant. -/
theorem Shape.reachesConstant_iff {shape : Shape} :
    shape.ReachesConstant ↔ (∃ value base, shape = constant value base) ∨
      ∃ record, shape = object record ∧
        ∃ property ∈ record.properties, property.type.ReachesConstant := by
  constructor
  · rintro ⟨indices, value, base, hat⟩
    cases indices with
    | nil =>
        rw [List.map_nil, at?] at hat
        exact .inl ⟨value, base, Option.some.inj hat⟩
    | cons index rest =>
        rw [List.map_cons] at hat
        cases shape with
        | object record =>
            rw [at?, Option.bind_eq_some_iff] at hat
            obtain ⟨property, hproperty, hrest⟩ := hat
            have hreaches : property.type.ReachesConstant := ⟨rest, value, base, hrest⟩
            exact .inr ⟨record, rfl, property, List.mem_of_getElem? hproperty, hreaches⟩
        | constant value base => exact .inl ⟨value, base, rfl⟩
        | string | formatted | number | boolean | union | array | reference => simp [at?] at hat
  · rintro (⟨value, base, rfl⟩ | ⟨record, rfl, property, hproperty, rest, value, base, hrest⟩)
    · exact ⟨[], value, base, by rw [List.map_nil, at?]⟩
    · obtain ⟨index, hindex⟩ := List.mem_iff_getElem?.mp hproperty
      refine ⟨index :: rest, value, base, ?_⟩
      rw [List.map_cons, at?, hindex]
      exact hrest

theorem Shape.ReachesConstant.hasLiteralForm {shape : Shape}
    (hreaches : shape.ReachesConstant) : shape.hasLiteralForm = true := by
  rcases Shape.reachesConstant_iff.mp hreaches with ⟨value, base, rfl⟩ | ⟨record, rfl, -⟩ <;> rfl

end Reaching

/-- The members set those properties that lead to a constant to the literals of their types, in
the order of the properties. -/
inductive KnownMembers : List (Property Shape) → List Member → Prop where
  | nil : KnownMembers [] []
  | known {property : Property Shape} {rest : List (Property Shape)} {value : Expr}
      {members : List Member} (hreaches : property.type.ReachesConstant)
      (hvalue : property.type.toLiteral? = .ok (some value)) (hrest : KnownMembers rest members) :
      KnownMembers (property :: rest) (.property property.name value :: members)
  | unknown {property : Property Shape} {rest : List (Property Shape)} {members : List Member}
      (hreaches : ¬ property.type.ReachesConstant) (hrest : KnownMembers rest members) :
      KnownMembers (property :: rest) members

namespace KnownMembers

variable {properties : List (Property Shape)} {members : List Member}

theorem ne_nil_iff (hknown : KnownMembers properties members) :
    members ≠ [] ↔ ∃ property ∈ properties, property.type.ReachesConstant := by
  induction hknown with
  | nil => simp
  | known hreaches => simp [hreaches]
  | unknown hreaches _ ih => simp [hreaches, ih]

/-- A member sets a property to the literal of its type. -/
theorem exists_property (hknown : KnownMembers properties members) {member : Member}
    (hmember : member ∈ members) : ∃ property ∈ properties, ∃ value,
      property.type.toLiteral? = .ok (some value) ∧ member = .property property.name value := by
  induction hknown with
  | nil => cases hmember
  | @known property rest value members _ hvalue _ ih =>
      rcases List.mem_cons.mp hmember with rfl | hmember
      · exact ⟨property, List.mem_cons_self, value, hvalue, rfl⟩
      · obtain ⟨other, hother, hsets⟩ := ih hmember
        exact ⟨other, List.mem_cons_of_mem _ hother, hsets⟩
  | unknown _ _ ih =>
      obtain ⟨other, hother, hsets⟩ := ih hmember
      exact ⟨other, List.mem_cons_of_mem _ hother, hsets⟩

theorem exists_property_of_mem (hknown : KnownMembers properties members) {name : String}
    {value : Expr} (hmember : .property name value ∈ members) : ∃ property ∈ properties,
      property.name = name ∧ property.type.toLiteral? = .ok (some value) := by
  obtain ⟨property, hproperty, literal, hvalue, heq⟩ := hknown.exists_property hmember
  obtain ⟨rfl, rfl⟩ := Member.property.inj heq
  exact ⟨property, hproperty, rfl, hvalue⟩

theorem keys_sublist (hknown : KnownMembers properties members) :
    (members.map Member.key?).Sublist (properties.map fun property => some property.name) := by
  induction hknown with
  | nil => exact .slnil
  | known _ _ _ ih => exact ih.cons_cons _
  | unknown _ _ ih => exact ih.cons _

theorem keys_nodup (hknown : KnownMembers properties members)
    (hnames : (properties.map (·.name)).Nodup) : (members.map Member.key?).Nodup := by
  have hsome := hnames.map (Option.some_injective String)
  rw [List.map_map] at hsome
  exact hsome.sublist hknown.keys_sublist

end KnownMembers

section Outcome

theorem objectLiteral?_eq_some_iff {members : List Member} {literal : Expr} :
    objectLiteral? members = some literal ↔ members ≠ [] ∧ literal = .object members := by
  cases members with
  | nil => simp [objectLiteral?]
  | cons member rest => simp [objectLiteral?, eq_comm]

mutual

/-- A shape with a literal form has a literal exactly if properties lead to a constant. -/
theorem Shape.exists_toLiteral? : (shape : Shape) → shape.hasLiteralForm = true →
    ∃ literal?, shape.toLiteral? = .ok literal? ∧
      ((∃ literal, literal? = some literal) ↔ shape.ReachesConstant)
  | .constant value _, _ =>
    ⟨some (.literal value), rfl, by rw [Shape.reachesConstant_iff]; simp⟩
  | .object ⟨properties, _⟩, _ => by
      obtain ⟨members, hmembers, hknown⟩ := exists_propertiesToMembers properties
      refine ⟨objectLiteral? members, by rw [Shape.toLiteral?, hmembers]; rfl, ?_⟩
      rw [Shape.reachesConstant_iff]
      simp [objectLiteral?_eq_some_iff, hknown.ne_nil_iff]
  | .string _, _ | .formatted .., _ | .number .., _ | .boolean, _ =>
    ⟨none, rfl, by rw [Shape.reachesConstant_iff]; simp⟩
  | .union .., hform | .array _, hform | .reference _, hform => by cases hform

/-- The members of an object. A property without a literal form leads to no constant. -/
theorem exists_propertiesToMembers : (properties : List (Property Shape)) →
    ∃ members, propertiesToMembers properties = .ok members ∧ KnownMembers properties members
  | [] => ⟨[], rfl, .nil⟩
  | ⟨name, type, required⟩ :: rest => by
      obtain ⟨members, hmembers, hknown⟩ := exists_propertiesToMembers rest
      rw [propertiesToMembers, hmembers]
      cases hform : type.hasLiteralForm with
      | false =>
          refine ⟨members, rfl, .unknown (fun hreaches => ?_) hknown⟩
          rw [hreaches.hasLiteralForm] at hform
          cases hform
      | true =>
          obtain ⟨literal?, hliteral, hreaches⟩ := type.exists_toLiteral? hform
          rw [if_pos rfl, hliteral]
          cases literal? with
          | none => exact ⟨members, rfl, .unknown (by simp [← hreaches]) hknown⟩
          | some literal =>
              exact ⟨_, rfl, .known (hreaches.mp ⟨literal, rfl⟩) hliteral hknown⟩

end

end Outcome

section Literals

variable {shape : Shape} {record : ObjectShape} {literal : Expr}

theorem Shape.exists_members_of_toLiteral?
    (hliteral : (object record).toLiteral? = .ok (some literal)) :
    ∃ members, members ≠ [] ∧ literal = .object members ∧
      KnownMembers record.properties members := by
  obtain ⟨members, hmembers, hknown⟩ := exists_propertiesToMembers record.properties
  rw [toLiteral?, hmembers] at hliteral
  obtain ⟨hne, rfl⟩ := objectLiteral?_eq_some_iff.mp (Except.ok.inj hliteral)
  exact ⟨members, hne, rfl, hknown⟩

theorem Shape.deepPartial_toType_object (mappings : ImportMappings) (record : ObjectShape) :
    ((object record).toType mappings).deepPartial = .object (record.properties.map fun property =>
      ⟨property.name, (property.type.toType mappings).deepPartial, true⟩) := by
  rw [toType_object, Record.toType_eq, Ty.deepPartial, fieldsDeepPartial_eq_map, List.map_map]
  rfl

/-- The literal of a normal shape is of its type with all properties optional. -/
theorem Shape.inhabits_of_toLiteral? (mappings : ImportMappings) (hnormal : shape.IsNormal)
    (hliteral : shape.toLiteral? = .ok (some literal)) :
    literal.Inhabits (shape.toType mappings).deepPartial := by
  induction hnormal generalizing literal with
  | @constant value =>
      obtain rfl := Option.some.inj (Except.ok.inj hliteral)
      exact .literal value
  | @object properties additional hnames _ ih =>
      obtain ⟨members, -, rfl, hknown⟩ := exists_members_of_toLiteral? hliteral
      rw [deepPartial_toType_object]
      refine .object (fun member hmember => ?_) (fun name value hmember field hfield hname => ?_)
        (hknown.keys_nodup hnames) fun field hfield _ => ?_
      · obtain ⟨property, hproperty, value, -, rfl⟩ := hknown.exists_property hmember
        exact ⟨property.name, value, rfl, _, List.mem_map_of_mem hproperty, rfl⟩
      · obtain ⟨property, hproperty, rfl, hvalue⟩ := hknown.exists_property_of_mem hmember
        obtain ⟨other, hother, rfl⟩ := List.mem_map.mp hfield
        -- names are distinct, so the field is the one of the property that the member sets
        obtain rfl := List.inj_on_of_nodup_map hnames hother hproperty hname
        exact ih other hother hvalue
      · obtain ⟨property, -, rfl⟩ := List.mem_map.mp hfield
        rfl
  | string | formatted | number | boolean | union | array | reference => cases hliteral

/-- An object without members is no literal, and in none. -/
theorem Shape.not_occurs_of_toLiteral? (hnormal : shape.IsNormal)
    (hliteral : shape.toLiteral? = .ok (some literal)) :
    ¬ Expr.Occurs (.object []) literal := by
  induction hnormal generalizing literal with
  | constant =>
      obtain rfl := Option.some.inj (Except.ok.inj hliteral)
      rintro ⟨⟩
  | object _ _ _ ih =>
      obtain ⟨members, hne, rfl, hknown⟩ := exists_members_of_toLiteral? hliteral
      intro hoccurs
      cases hoccurs with
      | here => exact hne rfl
      | member hmember hoccurs =>
          obtain ⟨property, hproperty, -, hvalue⟩ := hknown.exists_property_of_mem hmember
          exact ih property hproperty hvalue hoccurs
      | spread hmember =>
          obtain ⟨property, -, literal, -, heq⟩ := hknown.exists_property hmember
          cases heq
  | string | formatted | number | boolean | union | array | reference => cases hliteral

end Literals

/-- The literal carries what is known of the shape. -/
structure Shape.IsKnownAs (mappings : ImportMappings) (shape : Shape) (literal : Expr) : Prop where
  inhabits : literal.Inhabits (shape.toType mappings).deepPartial
  accepts : ∀ scope bound, ∃ value, literal.value? bound = some value ∧
    (shape.toType mappings).deepPartial.Accepts scope value
  constant : ∀ value base, shape = .constant value base →
    literal = .literal value ∧ shape.toType mappings = .literal value
  object : ∀ record, shape = .object record → ∃ members, literal = .object members ∧
    KnownMembers record.properties members ∧ (members.map Member.key?).Nodup
  occurs : ¬ Expr.Occurs (.object []) literal

/-- A normal shape that may be asked for its value has a literal exactly if properties lead to a
constant, and the literal is what is known of the shape. -/
theorem Shape.literal_carries_known {shape : Shape} (hnormal : shape.IsNormal)
    (hform : shape.hasLiteralForm = true) (mappings : ImportMappings) :
    (shape.toLiteral? = .ok none ↔ ¬ shape.ReachesConstant) ∧
      (shape.ReachesConstant → ∃ literal, shape.toLiteral? = .ok (some literal) ∧
        shape.IsKnownAs mappings literal) := by
  obtain ⟨literal?, hliteral, hreaches⟩ := shape.exists_toLiteral? hform
  refine ⟨by rw [hliteral, ← hreaches]; cases literal? <;> simp, fun hsome => ?_⟩
  obtain ⟨literal, rfl⟩ := hreaches.mpr hsome
  have hinhabits := Shape.inhabits_of_toLiteral? mappings hnormal hliteral
  refine ⟨literal, hliteral, hinhabits, hinhabits.accepts, ?_, ?_,
    Shape.not_occurs_of_toLiteral? hnormal hliteral⟩
  · rintro value base rfl
    obtain rfl := Option.some.inj (Except.ok.inj hliteral)
    exact ⟨rfl, rfl⟩
  · rintro record rfl
    obtain ⟨members, -, rfl, hknown⟩ := Shape.exists_members_of_toLiteral? hliteral
    cases hnormal with
    | object _ hnames => exact ⟨members, rfl, hknown, hknown.keys_nodup hnames⟩

theorem Shape.order_carries_known :
    let euro : Shape := .constant (.string "EUR") (.string none)
    let buyer : Shape := .object ⟨[⟨"name", .string none, true⟩], false⟩
    let app : Shape := .object ⟨[⟨"name", .string none, true⟩,
      ⟨"version", .constant (.integer 2) (.number true none), true⟩], false⟩
    let order : Shape := .object ⟨[⟨"currency", euro, true⟩, ⟨"others", .array euro, false⟩,
      ⟨"buyer", buyer, true⟩, ⟨"app", app, true⟩], false⟩
    let literal : Expr := .object [.property "currency" (.literal (.string "EUR")),
      .property "app" (.object [.property "version" (.literal (.integer 2))])]
    order.toLiteral? = .ok (some literal) ∧ order.IsKnownAs .shared literal := by
  intro euro buyer app order literal
  have heuro : euro.IsNormal := .constant trivial trivial (.string none)
  have hbuyer : buyer.IsNormal := by
    refine .object false (by simp) fun property hproperty => ?_
    obtain rfl := List.mem_singleton.mp hproperty
    exact .string none
  have happ : app.IsNormal := by
    refine .object false (by simp) (List.forall_mem_cons.mpr ⟨.string none, ?_⟩)
    rw [List.forall_mem_singleton]
    exact .constant trivial trivial (.number true none)
  have horder : order.IsNormal := by
    refine .object false (by simp) ?_
    simp only [List.forall_mem_cons]
    exact ⟨heuro, .array heuro, hbuyer, happ, fun _ h => by cases h⟩
  have hliteral : order.toLiteral? = .ok (some literal) := rfl
  have hreaches : order.ReachesConstant := ⟨[0], .string "EUR", .string none, rfl⟩
  obtain ⟨-, hknown⟩ := Shape.literal_carries_known horder rfl .shared
  obtain ⟨other, hother, hcarries⟩ := hknown hreaches
  obtain rfl := Option.some.inj (Except.ok.inj (hliteral.symm.trans hother))
  exact ⟨hliteral, hcarries⟩

end TrackingPlan
