import TrackingPlan.Proofs.Shape.Normal
import TrackingPlan.Schema.Reading

/-!
# Documents are well formed

A mapping that is read has each key once, a whole number 64 bits, and a number in
a constant is finite. A reading yields data with a property when its steps do, so
this is shown reading by reading, up to whole documents.
-/

namespace TrackingPlan

namespace Dict

variable {α : Type} {p : α → Prop}

theorem forall_assign {key : String} {value : α} (hvalue : p value) {entries : List (String × α)}
    (hentries : ∀ entry ∈ entries, p entry.2) : ∀ entry ∈ assign key value entries, p entry.2 := by
  induction entries with
  | nil => simpa [assign] using hvalue
  | cons first rest ih =>
      rw [List.forall_mem_cons] at hentries
      unfold assign
      split
      · exact List.forall_mem_cons.mpr ⟨hvalue, hentries.2⟩
      · exact List.forall_mem_cons.mpr ⟨hentries.1, ih hentries.2⟩

/-- A dictionary has no other values than the list that it is made of. -/
theorem forall_ofList {entries : List (String × α)} (hentries : ∀ entry ∈ entries, p entry.2) :
    ∀ entry ∈ (ofList entries).entries, p entry.2 := by
  unfold ofList
  suffices hfold : ∀ dict : Dict α, (∀ entry ∈ dict.entries, p entry.2) →
      ∀ entry ∈ (entries.foldl (fun dict entry => dict.insert entry.1 entry.2) dict).entries,
        p entry.2 by
    exact hfold empty (by simp [empty])
  induction entries with
  | nil => exact fun _ hdict => hdict
  | cons first rest ih =>
      rw [List.forall_mem_cons] at hentries
      exact fun dict hdict => ih hentries.2 _ (forall_assign hentries.1 hdict)

end Dict

namespace Yaml

variable {α β : Type}

/-- All that a reading can result in has the property. -/
def Read.Yields (reading : Read α) (property : α → Prop) : Prop :=
  ∀ document before value after,
    (reading.run document).run before = .ok (value, after) → property value

namespace Read.Yields

variable {p q : α → Prop} {reading : Read α}

theorem mono (hreading : reading.Yields p) (hweaker : ∀ value, p value → q value) :
    reading.Yields q :=
  fun document before value after hrun => hweaker value (hreading document before value after hrun)

theorem trivial (reading : Read α) : reading.Yields fun _ => True :=
  fun _ _ _ _ _ => True.intro

theorem pure {value : α} (hvalue : p value) : (Pure.pure value : Read α).Yields p := by
  intro document before _ after hrun
  obtain ⟨rfl, -⟩ := Prod.mk.inj (Except.ok.inj hrun)
  exact hvalue

theorem fail (problem : String) (p : α → Prop) : (Read.fail problem).Yields p := by
  intro document before value after hrun
  cases hrun

theorem bind {property : β → Prop} {next : α → Read β} (hreading : reading.Yields p)
    (hnext : ∀ value, p value → (next value).Yields property) :
    (reading >>= next).Yields property := by
  intro document before value after hrun
  obtain ⟨⟨middle, count⟩, hmiddle, hrest⟩ := bind_eq_ok_iff.mp hrun
  exact hnext middle (hreading _ _ _ _ hmiddle) _ _ _ _ hrest

/-- What an earlier step results in need not matter. -/
theorem of_next {property : β → Prop} {next : α → Read β}
    (hnext : ∀ value, (next value).Yields property) : (reading >>= next).Yields property :=
  (trivial reading).bind fun value _ => hnext value

theorem mapM {property : β → Prop} {read : α → Read β}
    (hread : ∀ item, (read item).Yields property) (items : List α) :
    (items.mapM read).Yields fun results => ∀ result ∈ results, property result := by
  induction items with
  | nil => exact pure (by simp)
  | cons item rest ih =>
      rw [List.mapM_cons]
      refine (hread item).bind fun result hresult => ih.bind fun results hresults => pure ?_
      exact List.forall_mem_cons.mpr ⟨hresult, hresults⟩

theorem optional {read : Node → Read α} (hread : ∀ node, (read node).Yields p) (node : Node) :
    (Read.optional read node).Yields fun result => ∀ value, result = some value → p value := by
  have hnone : (Pure.pure none : Read (Option α)).Yields fun result =>
      ∀ value, result = some value → p value := pure (by simp)
  have hsome : ∀ node, (do return some (← read node) : Read (Option α)).Yields fun result =>
      ∀ value, result = some value → p value :=
    fun node => (hread node).bind fun value hvalue => pure (by simpa using hvalue)
  refine of_next fun node => ?_
  split
  · split
    · split
      · exact hnone
      · exact hsome _
    · split
      · split
        · exact hnone
        · exact fail _ _
      · exact hsome _
  · exact hsome _

theorem field {read : Node → Read α} (hread : ∀ node, (read node).Yields p)
    (fields : List (String × Node)) (name : String) :
    (Read.field fields name read).Yields fun result => ∀ value, result = some value → p value := by
  unfold Read.field
  split
  · exact optional hread _
  · exact pure (by simp)

theorem fieldOr {read : Node → Read α} {absent : α} (habsent : p absent)
    (hread : ∀ node, (read node).Yields p) (fields : List (String × Node)) (name : String) :
    (Read.fieldOr fields name absent read).Yields p := by
  unfold Read.fieldOr
  split
  · exact hread _
  · exact pure habsent

theorem list {read : Node → Read α} (hread : ∀ node, (read node).Yields p) (depth : Nat)
    (node : Node) : (Read.list depth read node).Yields fun values => ∀ value ∈ values, p value :=
  of_next fun nodes => mapM hread nodes

theorem dict {read : Node → Read α} (hread : ∀ node, (read node).Yields p) (depth : Nat)
    (node : Node) :
    (Read.dict depth read node).Yields fun dict => ∀ entry ∈ dict.entries, p entry.2 := by
  refine of_next fun entries => ?_
  refine bind (mapM (fun entry => ?_) entries) fun pairs hpairs => pure (Dict.forall_ofList hpairs)
  exact of_next fun _ => (hread _).bind fun _ hvalue => pure hvalue

end Read.Yields

/-- What is read from a text has what its readings yield. -/
theorem of_readDocument {p : α → Prop} {read : Node → Read α} (hread : ∀ node, (read node).Yields p)
    {text : String} {value : α} (hvalue : readDocument read text = .ok value) : p value := by
  unfold readDocument at hvalue
  split at hvalue
  next => cases hvalue
  next document _ =>
    split at hvalue
    next => cases hvalue
    next result _ hrun =>
      obtain rfl := Except.ok.inj hvalue
      exact hread _ _ _ _ _ hrun

/-- A whole number in a scalar has 64 bits. -/
def Scalar.IsBounded : Scalar → Prop
  | integer value => fits64 value = true
  | _ => True

theorem Scalar.isBounded_of_ofPlain? {text : String} {scalar : Scalar}
    (hscalar : ofPlain? text = some scalar) : scalar.IsBounded := by
  unfold ofPlain? at hscalar
  split at hscalar
  · obtain rfl := Option.some.inj hscalar
    trivial
  · split at hscalar
    · obtain rfl := Option.some.inj hscalar
      trivial
    · extract_lets real at hscalar
      have hreal : real.IsBounded := by
        unfold real
        split
        · split <;> trivial
        · trivial
      split at hscalar
      · split at hscalar
        next hfits =>
          obtain rfl := Option.some.inj hscalar
          exact hfits
        next =>
          split at hscalar
          · cases hscalar
          · exact Option.some.inj hscalar ▸ hreal
      · exact Option.some.inj hscalar ▸ hreal

theorem Read.yields_scalar (properties : Properties) (style : Style) (text : String) :
    (scalar properties style text).Yields Scalar.IsBounded := by
  refine .of_next fun _ => ?_
  extract_lets orFail untagged
  have horFail : ∀ value : Option Scalar, (∀ scalar ∈ value, scalar.IsBounded) →
      (orFail value).Yields Scalar.IsBounded := by
    intro value hvalue
    cases value with
    | none => exact .fail _ _
    | some scalar => exact .pure (hvalue scalar rfl)
  have hstring : (pure (.string text) : Read Scalar).Yields Scalar.IsBounded :=
    .pure (p := Scalar.IsBounded) trivial
  have huntagged : untagged.Yields Scalar.IsBounded := by
    unfold untagged
    split
    · exact horFail _ fun _ => Scalar.isBounded_of_ofPlain?
    · exact hstring
  split
  · exact huntagged
  next tag _ =>
    split_ifs
    · refine horFail _ fun scalar hscalar => ?_
      obtain ⟨value, -, rfl⟩ := Option.map_eq_some_iff.mp hscalar
      trivial
    · refine horFail _ fun scalar hscalar => ?_
      obtain ⟨value, hvalue, rfl⟩ := Option.map_eq_some_iff.mp hscalar
      exact (Option.filter_eq_some_iff.mp hvalue).2
    · refine horFail _ fun scalar hscalar => ?_
      obtain ⟨value, -, rfl⟩ := Option.map_eq_some_iff.mp hscalar
      trivial
    · refine horFail (some .null) ?_
      rintro _ ⟨⟩
      trivial
    · exact horFail none nofun
    · exact huntagged
    · exact hstring

end Yaml

open Yaml

theorem Constant.isFinite_ofScalar {scalar : Scalar} (hscalar : scalar.IsBounded) :
    (ofScalar scalar).IsFinite := by
  cases scalar with
  | integer value =>
      have hfits : Scalar.fits64 value = true := hscalar
      have hbounds : -0x8000000000000000 ≤ value ∧ value < 0x10000000000000000 := by
        simpa [Scalar.fits64] using hfits
      exact hbounds
  | real value => by_cases hfinite : value.isFinite = true <;> simp [ofScalar, hfinite, IsFinite]
  | _ => trivial

theorem Constant.yields_ofNode (depth : Nat) (node : Node) :
    (ofNode depth node).Yields Constant.IsFinite := by
  unfold ofNode
  refine .of_next fun node => ?_
  split
  · exact (Read.yields_scalar _ _ _).bind fun scalar hscalar => .pure (isFinite_ofScalar hscalar)
  · refine .of_next fun _ => ?_
    split
    · exact .fail _ _
    · exact .of_next fun _ => .pure (p := Constant.IsFinite) trivial
  · refine .of_next fun _ => ?_
    split
    · exact .fail _ _
    · exact .of_next fun _ => .pure (p := Constant.IsFinite) trivial
  · exact .fail _ _

namespace Fragment

/-- A fragment is well formed when it is from a document and all below it are well formed. -/
theorem isWellFormed_of_keywords {fragment : Fragment} (hfragment : fragment.FromDocument)
    (hentries : ∀ entries, fragment.properties = some entries →
      ∀ entry ∈ entries, entry.2.IsWellFormed)
    (hitems : ∀ items, fragment.items = some items → items.IsWellFormed)
    (hoptions : ∀ options, fragment.oneOf = some options →
      ∀ option ∈ options, option.IsWellFormed) : fragment.IsWellFormed := by
  refine .of_parts hfragment fun part hpart => ?_
  rcases exists_of_mem_parts hpart with ⟨entries, heq, entry, hentry, hsame⟩ | heq |
    ⟨options, heq, hoption⟩
  · exact hsame ▸ hentries entries heq entry hentry
  · exact hitems _ heq
  · exact hoptions options heq _ hoption

theorem isWellFormed_empty : empty.IsWellFormed :=
  isWellFormed_of_keywords ⟨List.nodup_nil, nofun⟩ nofun nofun nofun

theorem yields_ofFields {items inner : Node → Read Fragment}
    (hitems : ∀ node, (items node).Yields IsWellFormed)
    (hinner : ∀ node, (inner node).Yields IsWellFormed) (depth : Nat)
    (fields : List (String × Node)) : (ofFields depth items inner fields).Yields IsWellFormed := by
  unfold ofFields
  extract_lets rest
  have hrest : ∀ constant : Option Constant,
      (∀ value, constant = some value → value.IsFinite) → (rest constant).Yields IsWellFormed := by
    intro constant hconstant
    iterate 6 refine .of_next fun _ => ?_
    refine (Read.Yields.field (.list hinner depth) fields "oneOf").bind fun oneOf hoptions => ?_
    refine (Read.Yields.field (p := fun entries : List (String × Fragment) =>
      (entries.map Prod.fst).Nodup ∧ ∀ entry ∈ entries, entry.2.IsWellFormed)
      (fun node => ?_) fields "properties").bind fun properties hproperties => ?_
    · exact (Read.Yields.dict hinner depth node).bind fun dict hdict => .pure ⟨dict.nodup, hdict⟩
    · refine .of_next fun additional => ?_
      refine (Read.Yields.field hitems fields "items").bind fun items hitems => .pure ?_
      refine isWellFormed_of_keywords ⟨?_, hconstant⟩ (fun entries hentries => ?_) hitems hoptions
      · cases properties with
        | none => exact List.nodup_nil
        | some entries => exact (hproperties entries rfl).1
      · exact (hproperties entries hentries).2
  split
  · exact .bind (.pure nofun) hrest
  next node _ =>
    rw [map_eq_pure_bind]
    refine .bind ((Constant.yields_ofNode depth node).bind fun value hvalue => .pure ?_) hrest
    simpa using hvalue

theorem yields_ofNode (depth : Nat) (node : Node) :
    (ofNode depth node).Yields IsWellFormed := by
  induction depth using Nat.twoStepInduction generalizing node with
  | zero => exact .of_next fun fields => .pure isWellFormed_empty
  | one =>
      have hitems : ∀ node, (ofNode 0 node).Yields IsWellFormed :=
        fun node => .of_next fun fields => .pure isWellFormed_empty
      exact .of_next (yields_ofFields hitems (fun _ => .pure isWellFormed_empty) 0)
  | more depth ih ih' => exact .of_next (yields_ofFields ih' ih (depth + 1))

theorem isWellFormed_of_ofText {text : String} {fragment : Fragment}
    (hfragment : ofText text = .ok fragment) : fragment.IsWellFormed :=
  of_readDocument (yields_ofNode depthLimit) hfragment

end Fragment

namespace EventDefinition

/-- The payload of an event is well formed when its properties are. -/
theorem isWellFormed_payload {event : EventDefinition}
    (hproperties : ∀ entry ∈ (event.properties.getD .empty).entries, entry.2.IsWellFormed) :
    event.payload.IsWellFormed :=
  Fragment.isWellFormed_of_keywords ⟨(event.properties.getD .empty).nodup, nofun⟩
    (fun _ hentries => Option.some.inj hentries ▸ hproperties) nofun nofun

theorem yields_ofNode (depth : Nat) (node : Node) :
    (ofNode depth node).Yields fun event => event.payload.IsWellFormed := by
  iterate 9 refine .of_next fun _ => ?_
  refine (Read.Yields.field (.dict (Fragment.yields_ofNode _) _) _ _).bind fun properties hread =>
    .pure (isWellFormed_payload ?_)
  cases properties with
  | none => exact fun entry hentry => by cases hentry
  | some properties => exact hread properties rfl

end EventDefinition

/-- All fragments of a document are well formed. -/
structure PlanDefinition.IsWellFormed (definition : PlanDefinition) : Prop where
  tracks : ∀ entry ∈ definition.tracks.entries, (entry.2.getD .empty).payload.IsWellFormed
  screens : ∀ entry ∈ definition.screens.entries, (entry.2.getD .empty).payload.IsWellFormed
  definitions : ∀ entry ∈ definition.definitions.entries, entry.2.IsWellFormed
  traits : ∀ entry ∈ definition.traits.entries, entry.2.IsWellFormed

namespace PlanDefinition

theorem yields_ofNode (depth : Nat) (node : Node) : (ofNode depth node).Yields IsWellFormed := by
  have hevent : ∀ node, (Read.optional (EventDefinition.ofNode (depth - 1 - 1)) node).Yields
      fun event => (event.getD .empty).payload.IsWellFormed := by
    refine fun node => (Read.Yields.optional (EventDefinition.yields_ofNode _) node).mono ?_
    intro event hread
    cases event with
    | none => exact EventDefinition.isWellFormed_payload fun entry hentry => by cases hentry
    | some event => exact hread event rfl
  have hfragment := Fragment.yields_ofNode (depth - 1 - 1)
  refine .of_next fun fields => ?_
  refine (Read.Yields.fieldOr nofun (.dict hevent _) fields _).bind fun tracks htracks => ?_
  refine (Read.Yields.fieldOr nofun (.dict hevent _) fields _).bind fun screens hscreens => ?_
  refine (Read.Yields.fieldOr nofun (.dict hfragment _) fields _).bind fun definitions htypes => ?_
  exact (Read.Yields.fieldOr nofun (.dict hfragment _) fields _).bind fun traits htraits =>
    .pure ⟨htracks, hscreens, htypes, htraits⟩

/-- The data of a document that was read is well formed. -/
theorem isWellFormed_of_ofText {text : String} {definition : PlanDefinition}
    (hdefinition : ofText text = .ok definition) : definition.IsWellFormed := by
  unfold ofText at hdefinition
  split at hdefinition
  next hread =>
    obtain rfl := Except.ok.inj hdefinition
    exact of_readDocument (yields_ofNode depthLimit) hread
  next => cases hdefinition

end PlanDefinition

end TrackingPlan
