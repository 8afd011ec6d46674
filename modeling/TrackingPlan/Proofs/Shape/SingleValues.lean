import TrackingPlan.Proofs.Decimal.Rounding
import TrackingPlan.Proofs.Schema.WellFormed
import TrackingPlan.Proofs.Shape.Listed
import TrackingPlan.Render
import TrackingPlan.TypeScript.Printer

/-!
# Single values

A single value is written after `const`, or as the only value that is listed for a
scalar type. The two are read in different ways: a constant may be any data, with
null for a number that is not finite, and a listed value is the first kind of literal
that fits. Where the value is a text or a number, both have the same literal.
-/

namespace TrackingPlan

namespace Yaml

variable {α β : Type}

/-- What a reading results in, and how many aliases were followed before and after it. -/
def Read.Gives (reading : Read α) (document : Document) (before : Nat) (value : α) (after : Nat) :
    Prop :=
  (reading.run document).run before = .ok (value, after)

namespace Read

variable {document : Document} {before after : Nat}

theorem gives_pure (value : α) : (pure value : Read α).Gives document before value before :=
  rfl

theorem gives_bind_iff {reading : Read α} {next : α → Read β} {result : β} :
    (reading >>= next).Gives document before result after ↔
      ∃ value middle, reading.Gives document before value middle ∧
        (next value).Gives document middle result after := by
  refine bind_eq_ok_iff.trans ⟨?_, ?_⟩
  · rintro ⟨⟨value, middle⟩, hvalue, hnext⟩
    exact ⟨value, middle, hvalue, hnext⟩
  · rintro ⟨value, middle, hvalue, hnext⟩
    exact ⟨(value, middle), hvalue, hnext⟩

theorem Gives.map {reading : Read α} {value : α}
    (hvalue : reading.Gives document before value after) (f : α → β) :
    (f <$> reading).Gives document before (f value) after := by
  rw [map_eq_pure_bind]
  exact gives_bind_iff.mpr ⟨value, after, hvalue, gives_pure _⟩

/-- Data without a declared type is a scalar when the node is one, behind an alias. -/
theorem gives_value_scalar {depth : Nat} {node : Node} {scalar : Scalar}
    (hread : (value depth node).Gives document before (.scalar scalar) after) :
    ∃ properties style text middle,
      (follow node).Gives document before (.scalar properties style text) middle ∧
      (Read.scalar properties style text).Gives document middle scalar after := by
  rw [value.eq_def] at hread
  obtain ⟨found, middle, hfollow, hread⟩ := gives_bind_iff.mp hread
  cases found with
  | scalar properties style text =>
      obtain ⟨other, after, hscalar, hread⟩ := gives_bind_iff.mp hread
      obtain ⟨⟨⟩, rfl⟩ := Prod.mk.inj (Except.ok.inj hread)
      exact ⟨properties, style, text, middle, hfollow, hscalar⟩
  | sequence properties items =>
      obtain ⟨-, middle, -, hread⟩ := gives_bind_iff.mp hread
      cases depth with
      | zero => cases hread
      | succ depth =>
          obtain ⟨values, after, -, hread⟩ := gives_bind_iff.mp hread
          obtain ⟨⟨⟩, -⟩ := Prod.mk.inj (Except.ok.inj hread)
  | mapping properties entries =>
      obtain ⟨-, middle, -, hread⟩ := gives_bind_iff.mp hread
      cases depth with
      | zero => cases hread
      | succ depth =>
          obtain ⟨values, after, -, hread⟩ := gives_bind_iff.mp hread
          obtain ⟨⟨⟩, -⟩ := Prod.mk.inj (Except.ok.inj hread)
  | _ => cases hread

theorem Gives.value_of_scalar {properties : Properties} {style : Style} {text : String}
    {node : Node} {middle : Nat} {scalar : Scalar}
    (hfollow : (follow node).Gives document before (.scalar properties style text) middle)
    (hscalar : (Read.scalar properties style text).Gives document middle scalar after)
    (depth : Nat) : (value depth node).Gives document before (.scalar scalar) after := by
  rw [value.eq_def]
  exact gives_bind_iff.mpr ⟨_, middle, hfollow, gives_bind_iff.mpr
    ⟨scalar, after, hscalar, gives_pure _⟩⟩

end Read

/-- A plain scalar without a tag. -/
def Node.plain (text : String) : Node := .scalar ⟨none, none⟩ .plain text

/-- A plain scalar is what its text stands for. -/
theorem Read.gives_value_plain {text : String} {scalar : Scalar}
    (hscalar : Scalar.ofPlain? text = some scalar) (document : Document) (count depth : Nat) :
    (value depth (.plain text)).Gives document count (.scalar scalar) count := by
  have hfollow : (follow (.plain text)).Gives document count (.scalar ⟨none, none⟩ .plain text)
      count := gives_pure _
  refine hfollow.value_of_scalar (gives_bind_iff.mpr ⟨(), count, gives_pure _, ?_⟩) depth
  simp only [beq_self_eq_true, if_true, hscalar]
  exact gives_pure scalar

/-- A mapping with plain keys. -/
def Node.ofFields (fields : List (String × Node)) : Node :=
  .mapping ⟨none, none⟩ (fields.map fun field => (.plain field.1, field.2))

/-- Known fields that stand once are read as they are written. -/
theorem Read.fields_ofFields {known : List String} {fields : List (String × Node)}
    (hknown : ∀ field ∈ fields, field.1 ∈ known) (hnodup : (fields.map Prod.fst).Nodup)
    (depth : Nat) : Read.fields known (depth + 1) (.ofFields fields) = pure fields := by
  unfold Read.fields
  have hentries : Read.entries (depth + 1) (.ofFields fields) =
      pure (fields.map fun field => (Node.plain field.1, field.2)) := rfl
  rw [hentries, pure_bind]
  -- The fold has found a first part of the fields and goes on with the rest of them.
  suffices hfold : ∀ rest found : List (String × Node), found ++ rest = fields →
      (rest.map fun field => (Node.plain field.1, field.2)).foldlM (fun found entry => do
        let name ← Read.text entry.1
        if !known.contains name then return found
        else if (found.lookup name).isSome then fail ("duplicate field `" ++ name ++ "`")
        else return found ++ [(name, entry.2)]) found = (pure fields : Read _) from
    hfold fields [] rfl
  intro rest
  induction rest with
  | nil =>
      rintro found rfl
      rw [List.map_nil, List.foldlM_nil, List.append_nil]
  | cons field rest ih =>
      rintro found rfl
      have hfield : known.contains field.1 = true :=
        List.contains_iff_mem.mpr (hknown field (by simp))
      have hnew : found.lookup field.1 = none := by
        refine List.lookup_eq_none_iff.mpr fun earlier hearlier => bne_iff_ne.mpr fun hsame => ?_
        rw [List.map_append] at hnodup
        exact List.disjoint_of_nodup_append hnodup (List.mem_map_of_mem hearlier)
          (hsame ▸ List.mem_map_of_mem List.mem_cons_self)
      have htext : Read.text (Node.plain field.1) = pure field.1 := rfl
      rw [List.map_cons, List.foldlM_cons, htext, pure_bind]
      simp only [hfield, hnew, Bool.not_true, Bool.false_eq_true, if_false, Option.isSome_none,
        pure_bind]
      exact ih _ (by simp)

end Yaml

open Yaml (Read Scalar Document)

namespace Fragment

/-- The node `{const: value}`. -/
def constNode (value : Yaml.Node) : Yaml.Node := .ofFields [("const", value)]

/-- The node `{type: …, enum: [value]}`. -/
def enumNode (type : String) (value : Yaml.Node) : Yaml.Node :=
  .ofFields [("type", .plain type), ("enum", .sequence ⟨none, none⟩ [value])]

/-- The fragment with nothing but a constant. -/
def ofConst (value : Constant) : Fragment :=
  { empty with keywords := { Keywords.none with constant := some value } }

/-- The fragment with nothing but a type and one listed value. -/
def ofEnum (type : String) (value : Literal) : Fragment :=
  { empty with keywords := { Keywords.none with type := some type, allowed := some [value] } }

/-- The types without parts. -/
def scalarTypes : List String := ["string", "number", "integer", "boolean"]

theorem ofFields_const (depth : Nat) (items inner : Yaml.Node → Read Fragment)
    (value : Yaml.Node) :
    ofFields depth items inner [("const", value)] = ofConst <$> Constant.ofNode depth value := by
  simp only [ofFields, Read.field, List.lookup_cons, List.lookup_nil, beq_self_eq_true,
    String.reduceBEq, pure_bind, bind_assoc, map_eq_pure_bind]
  rfl

theorem ofFields_enum (depth : Nat) (items inner : Yaml.Node → Read Fragment) {type : String}
    (htype : type ∈ scalarTypes) (value : Yaml.Node) :
    ofFields (depth + 1) items inner
        [("type", .plain type), ("enum", .sequence ⟨none, none⟩ [value])] =
      ofEnum type <$> readLiteral depth value := by
  have hoptional : Read.optional Read.text (.plain type) = pure (some type) := by
    simp only [scalarTypes, List.mem_cons, List.not_mem_nil, or_false] at htype
    rcases htype with rfl | rfl | rfl | rfl <;> rfl
  have hlist : Read.optional (Read.list (depth + 1) (readLiteral depth))
      (.sequence ⟨none, none⟩ [value]) =
        (fun literal => some [literal]) <$> readLiteral depth value := by
    simp [Read.optional, Read.follow, Read.list, Read.items]
  simp only [ofFields, Read.field, List.lookup_cons, List.lookup_nil, beq_self_eq_true,
    String.reduceBEq, pure_bind, bind_assoc, map_eq_pure_bind, hoptional, Nat.add_one_sub_one,
    hlist]
  rfl

section

variable {document : Document} {before after : Nat} {value : Yaml.Node} {scalar : Scalar}

/-- A constant that is a scalar is read from the scalar. -/
theorem gives_constNode {depth : Nat}
    (hvalue : (Read.value depth value).Gives document before (.scalar scalar) after) :
    (ofNode (depth + 2) (constNode value)).Gives document before (ofConst (.ofScalar scalar))
      after := by
  obtain ⟨properties, style, text, middle, hfollow, hscalar⟩ := Read.gives_value_scalar hvalue
  have hconstant : (Constant.ofNode (depth + 1) value).Gives document before (.ofScalar scalar)
      after := by
    rw [Constant.ofNode.eq_def]
    exact Read.gives_bind_iff.mpr ⟨_, middle, hfollow, hscalar.map Constant.ofScalar⟩
  have hfields : Read.fields keywordNames (depth + 2) (constNode value) =
      pure [("const", value)] := Read.fields_ofFields (by simp [keywordNames]) (by simp) _
  rw [ofNode, hfields, pure_bind, ofFields_const]
  exact hconstant.map ofConst

/-- A listed value that is a scalar is read from the scalar, if it is a literal. -/
theorem gives_enumNode {depth : Nat} {type : String} (htype : type ∈ scalarTypes)
    {literal : Literal}
    (hvalue : (Read.value depth value).Gives document before (.scalar scalar) after)
    (hliteral : Literal.ofScalar? scalar = some literal) :
    (ofNode (depth + 2) (enumNode type value)).Gives document before (ofEnum type literal)
      after := by
  have hlisted : (readLiteral depth value).Gives document before literal after := by
    refine Read.gives_bind_iff.mpr ⟨_, after, hvalue, ?_⟩
    rw [Literal.ofValue?, hliteral]
    exact Read.gives_pure literal
  have hfields : Read.fields keywordNames (depth + 2) (enumNode type value) =
      pure [("type", .plain type), ("enum", .sequence ⟨none, none⟩ [value])] :=
    Read.fields_ofFields (by simp [keywordNames]) (by simp) _
  rw [ofNode, hfields, pure_bind, ofFields_enum depth _ _ htype]
  exact hlisted.map (ofEnum type)

end

end Fragment

namespace Shape

variable {formats : FormatRegistry}

theorem enumeration_single (value : Literal) (base : Shape) :
    enumeration [value] base = allowedValue base value := by
  simp only [enumeration, List.mapM_cons, List.mapM_nil]
  cases allowedValue base value <;> rfl

/-- A type without parts has a shape, which the listed value restricts. -/
theorem exists_ofFragment_ofEnum {type : String} (htype : type ∈ Fragment.scalarTypes)
    (value : Literal) :
    ∃ base, ofFragment formats (.ofEnum type value) = allowedValue base value := by
  have hkind : ∃ kind : Fragment.Kind, (Fragment.ofEnum type value).kind = .ok kind ∧
      ∃ base, ofScalar? formats none kind = some base := by
    simp only [Fragment.scalarTypes, List.mem_cons, List.not_mem_nil, or_false] at htype
    rcases htype with rfl | rfl | rfl | rfl <;> exact ⟨_, rfl, _, rfl⟩
  obtain ⟨kind, hkind, base, hbase⟩ := hkind
  refine ⟨base, ?_⟩
  rw [← enumeration_single, ofFragment_of_kind hkind]
  cases kind with
  | string | number | integer | boolean =>
      obtain rfl := Option.some.inj hbase
      rfl
  | _ => cases hbase

/-- The shape is the single value, in types and where a value is asked for. -/
structure Denotes (shape : Shape) (literal : Literal) : Prop where
  constant : ∃ base, shape = .constant literal base
  typeText : ∀ mappings, (shape.toType mappings).toText = literal.toText
  valueText : ∃ value, shape.toLiteral? = .ok (some value) ∧ value.toText = literal.toText

theorem denotes_constant (literal : Literal) (base : Shape) :
    (constant literal base).Denotes literal where
  constant := ⟨base, rfl⟩
  typeText mappings := by rw [toType, TypeScript.Ty.toText]
  valueText := ⟨.literal literal, by rw [toLiteral?], by rw [TypeScript.Expr.toText]⟩

end Shape

namespace Fragment

variable {formats : FormatRegistry} {single listed : Fragment}

/-- Both fragments have a shape, and both shapes are the literal. -/
def BothDenote (formats : FormatRegistry) (single listed : Fragment) (literal : Literal) : Prop :=
  ∃ first second, Shape.ofFragment formats single = .ok first ∧ first.Denotes literal ∧
    Shape.ofFragment formats listed = .ok second ∧ second.Denotes literal

/-- A fragment that has no shape because no literal is the value. -/
def IsUnsupported (formats : FormatRegistry) (fragment : Fragment) : Prop :=
  ∃ kind, Shape.ofFragment formats fragment = .error (.ofCause (.unsupportedConstant kind))

/-- What both fragments are, by the scalar that their value is written as. -/
structure AgreeOn (formats : FormatRegistry) (scalar : Scalar) (single listed : Fragment) :
    Prop where
  text : ∀ text, scalar = .string text → BothDenote formats single listed (.string text)
  /-- A whole number that fits 64 bits with a sign is kept as it is. -/
  whole : ∀ number, scalar = .integer number → number < Literal.integerBound →
    ∃ value : Int64, value.toInt = number ∧ BothDenote formats single listed (.integer value)
  /-- A larger one is the nearest floating point number. -/
  large : ∀ number, scalar = .integer number → Literal.integerBound ≤ number →
    BothDenote formats single listed (.float (.ofInt number))
  real : ∀ number, scalar = .real number → number.isFinite = true →
    BothDenote formats single listed (.float number)
  unsupported : ∀ number, scalar = .real number → number.isFinite = false →
    IsUnsupported formats single ∧ IsUnsupported formats listed

theorem bothDenote_ofConst {value : Constant} {type : String} (htype : type ∈ scalarTypes)
    {literal : Literal} {base : Shape}
    (hvalue : Shape.ofConstant value = .ok (.constant literal base)) (hfinite : literal.IsFinite) :
    BothDenote formats (ofConst value) (ofEnum type literal) literal := by
  obtain ⟨listed, hlisted⟩ := @Shape.exists_ofFragment_ofEnum formats _ htype literal
  rw [Shape.allowedValue_of_isFinite hfinite] at hlisted
  exact ⟨_, _, (Shape.ofFragment_of_constant rfl).trans hvalue, Shape.denotes_constant _ _,
    hlisted, Shape.denotes_constant _ _⟩

theorem agreeOn_of_ofScalar? {scalar : Scalar} (hbounded : scalar.IsBounded)
    {literal : Literal} (hliteral : Literal.ofScalar? scalar = some literal) {type : String}
    (htype : type ∈ scalarTypes) :
    AgreeOn formats scalar (ofConst (.ofScalar scalar)) (ofEnum type literal) := by
  constructor
  case text =>
    rintro text rfl
    obtain rfl := Option.some.inj hliteral
    exact bothDenote_ofConst htype rfl trivial
  case whole =>
    rintro number rfl hsmall
    have hrange : -Literal.integerBound ≤ number := by
      simp only [Scalar.IsBounded, Scalar.fits64, Bool.and_eq_true, decide_eq_true_eq] at hbounded
      exact hbounded.1
    rw [Literal.ofScalar?, if_pos hsmall] at hliteral
    obtain rfl := Option.some.inj hliteral
    have hconstant : Shape.ofConstant (.integer number) =
        .ok (.constant (.integer (Int64.ofInt number)) (.number true none)) :=
      if_pos ⟨hrange, hsmall⟩
    exact ⟨_, Int64.toInt_ofInt_of_le hrange hsmall, bothDenote_ofConst htype hconstant trivial⟩
  case large =>
    rintro number rfl hlarge
    rw [Literal.ofScalar?, if_neg hlarge.not_gt] at hliteral
    obtain rfl := Option.some.inj hliteral
    have hnatAbs : number.natAbs < 0x10000000000000000 := by
      simp only [Scalar.IsBounded, Scalar.fits64, Bool.and_eq_true, decide_eq_true_eq] at hbounded
      unfold Literal.integerBound at hlarge
      omega
    exact bothDenote_ofConst htype (if_neg fun hsmall => hlarge.not_gt hsmall.2)
      (Binary64.isNumber_ofInt hnatAbs).isFinite
  case real =>
    rintro number rfl hfinite
    obtain rfl := Option.some.inj hliteral
    have hconstant : Shape.ofConstant (.ofScalar (.real number)) =
        .ok (.constant (.float number) (.number false none)) := by
      rw [Constant.ofScalar, if_pos hfinite, Shape.ofConstant]
    exact bothDenote_ofConst htype hconstant hfinite
  case unsupported =>
    rintro number rfl hfinite
    obtain rfl := Option.some.inj hliteral
    obtain ⟨base, hlisted⟩ := @Shape.exists_ofFragment_ofEnum formats _ htype (.float number)
    refine ⟨⟨"null", ?_⟩, ⟨"non-finite number `" ++ number.toText ++ "`", ?_⟩⟩
    · rw [Shape.ofFragment_of_constant rfl, Constant.ofScalar, hfinite]
      rfl
    · rw [hlisted, Shape.allowedValue, hfinite]
      rfl

/-- A text or a number that stands after `const` is the same literal as the only listed value
of a scalar type. An infinity or NaN is a literal in neither place. -/
theorem const_and_enum_agree {document : Document} {before after depth : Nat} {value : Yaml.Node}
    {scalar : Scalar}
    (hvalue : (Read.value depth value).Gives document before (.scalar scalar) after)
    (hscalar : scalar ≠ .null) {type : String} (htype : type ∈ scalarTypes) (left : Nat) :
    ∃ single listed,
      (ofNode (left + 2) (constNode value)).Gives document before single after ∧
      (ofNode (left + 2) (enumNode type value)).Gives document before listed after ∧
      ∀ formats, AgreeOn formats scalar single listed := by
  obtain ⟨properties, style, text, middle, hfollow, hread⟩ := Read.gives_value_scalar hvalue
  have hbounded : scalar.IsBounded := Read.yields_scalar _ _ _ _ _ _ _ hread
  have hvalue := hfollow.value_of_scalar hread left
  obtain ⟨literal, hliteral⟩ : ∃ literal, Literal.ofScalar? scalar = some literal := by
    cases scalar with
    | null => exact absurd rfl hscalar
    | integer number => exact ⟨_, (apply_ite some _ _ _).symm⟩
    | _ => exact ⟨_, rfl⟩
  exact ⟨_, _, gives_constNode hvalue, gives_enumNode htype hvalue hliteral,
    fun formats => agreeOn_of_ofScalar? hbounded hliteral htype⟩

/-- The greatest whole number of 64 bits is the same floating point number in both places. -/
theorem greatest_agrees :
    ∃ single listed,
      (ofNode 2 (constNode (.plain "18446744073709551615"))).Gives ⟨none, [], 1⟩ 0 single 0 ∧
      (ofNode 2 (enumNode "number" (.plain "18446744073709551615"))).Gives ⟨none, [], 1⟩ 0
        listed 0 ∧
      ∀ formats, BothDenote formats single listed (.float (.finite false 4503599627370496 12)) := by
  have hplain : Scalar.ofPlain? "18446744073709551615" = some (.integer 18446744073709551615) := by
    decide +kernel
  have hvalue := Read.gives_value_plain hplain ⟨none, [], 1⟩ 0 0
  obtain ⟨single, listed, hsingle, hlisted, hagree⟩ :=
    const_and_enum_agree hvalue (by decide) (show "number" ∈ scalarTypes by decide) 0
  have hfloat : Binary64.ofInt 18446744073709551615 = .finite false 4503599627370496 12 := by
    decide
  exact ⟨single, listed, hsingle, hlisted, fun formats =>
    hfloat ▸ (hagree formats).large _ rfl (by decide)⟩

end Fragment

end TrackingPlan
