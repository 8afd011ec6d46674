import TrackingPlan.Proofs.Layout.Conformance

/-!
# Expressions of a type

When an object of literals is an expression of an object type, and which
expressions occur in another one. Evaluated, an expression of a type has a value
that the type accepts.
-/

namespace TrackingPlan.TypeScript

mutual

/-- The type with all properties of its objects optional, at any depth. -/
def Ty.deepPartial : Ty → Ty
  | .array items => .array items.deepPartial
  | .union options => .union (typesDeepPartial options)
  | .object fields => .object (fieldsDeepPartial fields)
  | .primitive primitive => .primitive primitive
  | .literal value => .literal value
  | .name name => .name name
  | .qualified scope name => .qualified scope name

def typesDeepPartial : List Ty → List Ty
  | [] => []
  | type :: rest => type.deepPartial :: typesDeepPartial rest

def fieldsDeepPartial : List (TypeField Ty) → List (TypeField Ty)
  | [] => []
  | ⟨name, type, _⟩ :: rest => ⟨name, type.deepPartial, true⟩ :: fieldsDeepPartial rest

end

theorem fieldsDeepPartial_eq_map (fields : List (TypeField Ty)) :
    fieldsDeepPartial fields = fields.map fun field =>
      ⟨field.name, field.type.deepPartial, true⟩ := by
  induction fields with
  | nil => rfl
  | cons field rest ih => rw [fieldsDeepPartial, ih, List.map_cons]

/-- The key of a member; a spread has none. -/
def Member.key? : Member → Option String
  | .property name _ => some name
  | .spread _ => none

/-- The expression is one of the type, as far as literals and objects of them go. An object has
properties of its type only, each at most once, and all that its type asks for. -/
inductive Expr.Inhabits : Expr → Ty → Prop where
  | literal (value : Literal) : Inhabits (.literal value) (.literal value)
  | object {members : List Member} {fields : List (TypeField Ty)}
      (hdeclared : ∀ member ∈ members, ∃ name value,
        member = .property name value ∧ ∃ field ∈ fields, field.name = name)
      (hinhabits : ∀ name value, .property name value ∈ members →
        ∀ field ∈ fields, field.name = name → Inhabits value field.type)
      (hnodup : (members.map Member.key?).Nodup)
      (hleft : ∀ field ∈ fields, some field.name ∉ members.map Member.key? →
        field.optional = true) :
      Inhabits (.object members) (.object fields)

/-- The expression is the other one or somewhere in it. -/
inductive Expr.Occurs (part : Expr) : Expr → Prop where
  | here : Occurs part part
  | callee {callee : Expr} {arguments : List Expr} (hoccurs : Occurs part callee) :
      Occurs part (.call callee arguments)
  | argument {callee argument : Expr} {arguments : List Expr} (hargument : argument ∈ arguments)
      (hoccurs : Occurs part argument) : Occurs part (.call callee arguments)
  | const {isAsync : Bool} {parameters : List Parameter} {body : List Statement} {name : String}
      {value : Expr} (hstatement : .const name value ∈ body) (hoccurs : Occurs part value) :
      Occurs part (.arrow isAsync parameters body)
  | expression {isAsync : Bool} {parameters : List Parameter} {body : List Statement}
      {value : Expr} (hstatement : .expression value ∈ body) (hoccurs : Occurs part value) :
      Occurs part (.arrow isAsync parameters body)
  | member {members : List Member} {name : String} {value : Expr}
      (hmember : .property name value ∈ members) (hoccurs : Occurs part value) :
      Occurs part (.object members)
  | spread {members : List Member} {value : Expr} (hmember : .spread value ∈ members)
      (hoccurs : Occurs part value) : Occurs part (.object members)
  | property {object : Expr} {name : String} (hoccurs : Occurs part object) :
      Occurs part (.property object name)
  | operand {operand : Expr} (hoccurs : Occurs part operand) : Occurs part (.await operand)

/-- Members that have values make entries: each has the value of a member with its key, and no
member is left without an entry. -/
theorem exists_entries? {members : List Member} {bound : List (String × Value)}
    (hmembers : ∀ member ∈ members, ∃ name expression value,
      member = .property name expression ∧ expression.value? bound = some value)
    (entries : List (String × Value)) :
    ∃ found, entries? bound entries members = some found ∧ ∀ name,
      (∀ value, found.lookup name = some value → entries.lookup name = some value ∨
        ∃ expression, .property name expression ∈ members ∧
          expression.value? bound = some value) ∧
      (found.lookup name = none →
        entries.lookup name = none ∧ some name ∉ members.map Member.key?) := by
  induction members generalizing entries with
  | nil => exact ⟨entries, rfl, fun name => ⟨fun value => .inl, fun hnone => ⟨hnone, by simp⟩⟩⟩
  | cons member rest ih =>
      obtain ⟨⟨key, expression, value, rfl, hvalue⟩, hrest⟩ := List.forall_mem_cons.mp hmembers
      obtain ⟨found, hfound, hlookup⟩ := ih hrest (assign key value entries)
      refine ⟨found, ?_, fun name => ⟨fun other hother => ?_, fun hnone => ?_⟩⟩
      · rw [entries?, hvalue]
        exact hfound
      · rcases (hlookup name).1 other hother with hassigned | ⟨inner, hinner, hsame⟩
        · rw [lookup_assign] at hassigned
          split at hassigned
          next hname =>
            subst hname
            rw [← hassigned]
            exact .inr ⟨expression, List.mem_cons_self, hvalue⟩
          next => exact .inl hassigned
        · exact .inr ⟨inner, List.mem_cons_of_mem _ hinner, hsame⟩
      · obtain ⟨hassigned, hleft⟩ := (hlookup name).2 hnone
        rw [lookup_assign] at hassigned
        split at hassigned
        next => cases hassigned
        next hname => exact ⟨hassigned, by simpa [Member.key?, hname] using hleft⟩

/-- An expression of a type has a value, which the type accepts whatever names stand for. -/
theorem Expr.Inhabits.accepts {expression : Expr} {type : Ty}
    (hinhabits : expression.Inhabits type) (scope : Scope) (bound : List (String × Value)) :
    ∃ value, expression.value? bound = some value ∧ type.Accepts scope value := by
  induction hinhabits with
  | literal value => exact ⟨.literal value, rfl, .literal value⟩
  | @object members fields hdeclared _ _ hleft ih =>
      have hvalues : ∀ member ∈ members, ∃ name expression value,
          member = .property name expression ∧ expression.value? bound = some value := by
        intro member hmember
        obtain ⟨name, expression, rfl, field, hfield, hname⟩ := hdeclared member hmember
        obtain ⟨value, hvalue, -⟩ := ih name expression hmember field hfield hname
        exact ⟨name, expression, value, rfl, hvalue⟩
      obtain ⟨entries, hentries, hlookup⟩ := exists_entries? hvalues []
      -- Each entry has the value of a member, and a field without an entry has no member.
      have hread : ∀ field ∈ fields,
          readEntry entries field.name = .undefined ∧ field.optional = true ∨
            field.type.Accepts scope (readEntry entries field.name) := by
        intro field hfield
        unfold readEntry
        cases hentry : entries.lookup field.name with
        | none => exact .inl ⟨rfl, hleft field hfield ((hlookup field.name).2 hentry).2⟩
        | some value =>
            rcases (hlookup field.name).1 value hentry with hnothing | ⟨expression, hmember, hsame⟩
            · cases hnothing
            · obtain ⟨found, hfound, haccepts⟩ := ih field.name expression hmember field hfield rfl
              obtain rfl := Option.some.inj (hfound.symm.trans hsame)
              exact .inr haccepts
      refine ⟨.object entries, by rw [Expr.value?, hentries]; rfl,
        .object (fun field hfield hsome => ?_) fun field hfield hnone => ?_⟩
      · rcases hread field hfield with ⟨hundefined, -⟩ | haccepts
        · exact absurd hundefined hsome
        · exact haccepts
      · rcases hread field hfield with ⟨-, hoptional⟩ | haccepts
        · exact hoptional
        · exact absurd hnone haccepts.ne_undefined

end TrackingPlan.TypeScript
