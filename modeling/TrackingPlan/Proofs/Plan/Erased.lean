import TrackingPlan.Proofs.Plan.Pass
import TrackingPlan.Proofs.Shape.Erased

/-!
# Documents without what means nothing

An empty entry is one without any data, an event has the key of its entry and no other,
a track lists no tracks, and a description is that of an event or of a named type. A
document without the rest, also inside of its fragments, has the same plan or the same
fault.
-/

namespace TrackingPlan

/-- The dictionary with the image of each value at its key. -/
def Dict.mapValues {α β : Type} (image : α → β) (dict : Dict α) : Dict β where
  entries := dict.entries.map (Prod.map id image)
  nodup := by
    rw [List.map_map]
    exact dict.nodup

theorem Dict.keys_mapValues {α β : Type} (image : α → β) (dict : Dict α) :
    (dict.mapValues image).keys = dict.keys := by
  unfold Dict.keys mapValues
  rw [List.map_map]
  rfl

def Fragment.describedAs (description : Option String) (fragment : Fragment) : Fragment :=
  { fragment with keywords := { fragment.keywords with description } }

/-- The fragment without what means nothing, but with its description. -/
def Fragment.erasedType (fragment : Fragment) : Fragment :=
  fragment.erased.describedAs fragment.keywords.description

/-- The event without a key of its own, and with the payload that it stands for. -/
def EventDefinition.erased (event : EventDefinition) : EventDefinition :=
  { event with
    key := none
    required := some event.payload.requiredProperties
    properties := some ((event.properties.getD .empty).mapValues Fragment.erased) }

/-- The document without what means nothing. -/
def PlanDefinition.erased (definition : PlanDefinition) : PlanDefinition where
  tracks := definition.tracks.mapValues fun event =>
    some { (event.getD .empty).erased with tracks := [] }
  screens := definition.screens.mapValues fun event => some (event.getD .empty).erased
  definitions := definition.definitions.mapValues Fragment.erasedType
  traits := definition.traits.mapValues Fragment.erasedType

theorem EventDefinition.payload_erased (event : EventDefinition) :
    event.erased.payload = (event.payload.mapParts Fragment.erased).trimmedType "object" := by
  unfold Fragment.trimmedType
  rw [Fragment.requiredProperties_mapParts]
  rfl

section Fragments

variable (formats : FormatRegistry)

theorem Shape.ofFragment_describedAs (description : Option String) (fragment : Fragment) :
    ofFragment formats (fragment.describedAs description) = ofFragment formats fragment := by
  obtain ⟨keywords, oneOf, properties, additional, items⟩ := fragment
  rw [Fragment.describedAs, ofFragment.eq_def, ofFragment.eq_def]
  rfl

theorem Shape.ofFragment_erasedType (fragment : Fragment) :
    ofFragment formats fragment.erasedType = ofFragment formats fragment := by
  rw [Fragment.erasedType, ofFragment_describedAs, ofFragment_erased]

theorem Record.ofFragment_payload_erased (event : EventDefinition) :
    Record.ofFragment formats event.erased.payload = Record.ofFragment formats event.payload := by
  rw [EventDefinition.payload_erased, Shape.record_trimmedType]
  exact Shape.record_mapParts formats fun entry _ => Shape.ofFragment_erased formats entry.2

end Fragments

namespace Draft

/-- The draft with nothing listed, which is all the same for a track. -/
def unlisted (draft : Draft) : Draft := { draft with listed := [] }

variable (formats : FormatRegistry)

theorem ofEntry_erased (kind : EventKind) (entry : String × Option EventDefinition) :
    ofEntry formats kind (entry.1, some (entry.2.getD .empty).erased) =
      ofEntry formats kind entry := by
  unfold ofEntry
  rw [Option.getD_some, Record.ofFragment_payload_erased]
  rfl

theorem ofEntry_unlisted (kind : EventKind) (key : String) (event : EventDefinition) :
    ofEntry formats kind (key, some { event with tracks := [] }) =
      (ofEntry formats kind (key, some event)).map unlisted := by
  have hpayload : ({ event with tracks := [] } : EventDefinition).payload = event.payload := rfl
  unfold ofEntry
  rw [Option.getD_some, Option.getD_some, hpayload]
  cases Record.ofFragment formats event.payload <;> rfl

theorem ofScreenEntry_erased (known : List String) (entry : String × Option EventDefinition) :
    ofScreenEntry formats known (entry.1, some (entry.2.getD .empty).erased) =
      ofScreenEntry formats known entry := by
  unfold ofScreenEntry
  rw [ofEntry_erased]

end Draft

namespace Plan

/-- What tracks list is not looked at. -/
theorem assembled_unlisted (tracks screens : List Draft) :
    assembled (tracks.map Draft.unlisted) screens = assembled tracks screens := by
  have hmentions : Draft.allMentions (tracks.map Draft.unlisted ++ screens) =
      Draft.allMentions (tracks ++ screens) := by
    unfold Draft.allMentions
    rw [List.flatMap_append, List.flatMap_append, List.flatMap_map]
    rfl
  have hfeature : Feature.assembled (tracks.map Draft.unlisted) screens =
      Feature.assembled tracks screens := by
    funext name
    unfold Feature.assembled
    rw [List.findIdxs_map]
    rfl
  have hscreen : ∀ names, Screen.assembled names (tracks.map Draft.unlisted) =
      Screen.assembled names tracks := by
    intro names
    funext index draft
    unfold Screen.assembled
    simp only [List.find?_map, Option.map_map]
    rfl
  unfold assembled
  simp only [hmentions, hfeature, hscreen, List.map_map]
  rfl

variable (formats : FormatRegistry)

theorem trackDrafts_erased (definition : PlanDefinition) :
    trackDrafts formats definition.erased =
      (trackDrafts formats definition).map (List.map Draft.unlisted) := by
  unfold trackDrafts
  rw [map_mapM_eq fun entry _ => map_inContext Draft.unlisted (entryLabel "track" entry.1) _]
  refine (List.mapM_map ..).trans (mapM_congr fun entry _ => ?_)
  change inContext _ (Draft.ofEntry formats .track
    (entry.1, some { (entry.2.getD .empty).erased with tracks := [] })) = _
  rw [Draft.ofEntry_unlisted, Draft.ofEntry_erased]
  rfl

theorem screenDrafts_erased (definition : PlanDefinition) :
    screenDrafts formats definition.erased = screenDrafts formats definition := by
  unfold screenDrafts
  rw [PlanDefinition.erased, Dict.keys_mapValues]
  refine (List.mapM_map ..).trans (mapM_congr fun entry _ => ?_)
  exact congrArg (inContext (entryLabel "screen" entry.1)) (Draft.ofScreenEntry_erased formats _ entry)

theorem namedTypes_erased (section_ : String) (types : Dict Fragment) :
    namedTypes formats section_ (types.mapValues Fragment.erasedType) =
      namedTypes formats section_ types := by
  unfold namedTypes
  refine (List.mapM_map ..).trans (mapM_congr fun entry _ => ?_)
  simp only [Function.comp_apply, Prod.map, id, Shape.ofFragment_erasedType]
  rfl

/-- A document has the plan, or the fault, that it has without all that means nothing. -/
theorem ofDefinition_erased (definition : PlanDefinition) :
    ofDefinition formats definition.erased = ofDefinition formats definition := by
  have hdefinitions := namedTypes_erased formats "$defs" definition.definitions
  have htraits := namedTypes_erased formats "traits" definition.traits
  rw [ofDefinition_eq, ofDefinition_eq, trackDrafts_erased, screenDrafts_erased]
  rw [PlanDefinition.erased, hdefinitions, htraits]
  cases trackDrafts formats definition with
  | error fault => rfl
  | ok tracks =>
      simp only [Except.map, bind, Except.bind, assembled_unlisted]

/-- What means nothing changes neither a shape nor a plan, and no fault either: two fragments and
two documents that differ in nothing else have the same outcome. A named type has the description
of its entry. -/
theorem outcome_of_erased :
    (∀ fragment : Fragment,
      Shape.ofFragment formats fragment.erased = Shape.ofFragment formats fragment) ∧
    (∀ first second : Fragment, first.erased = second.erased →
      Shape.ofFragment formats first = Shape.ofFragment formats second) ∧
    (∀ definition : PlanDefinition,
      ofDefinition formats definition.erased = ofDefinition formats definition) ∧
    (∀ first second : PlanDefinition, first.erased = second.erased →
      ofDefinition formats first = ofDefinition formats second) ∧
    ∀ (definition : PlanDefinition) plan, ofDefinition formats definition = .ok plan →
      plan.definitions.map (fun type => (type.name, type.description)) =
        definition.definitions.entries.map (fun entry => (entry.1, entry.2.keywords.description)) ∧
      plan.traits.map (fun type => (type.name, type.description)) =
        definition.traits.entries.map fun entry => (entry.1, entry.2.keywords.description) := by
  refine ⟨Shape.ofFragment_erased formats, fun first second hsame => ?_, ofDefinition_erased formats,
    fun first second hsame => ?_, fun definition plan hplan => ?_⟩
  · rw [← Shape.ofFragment_erased, hsame, Shape.ofFragment_erased]
  · rw [← ofDefinition_erased, hsame, ofDefinition_erased]
  · obtain ⟨tracks, screens, definitions, traits, -, -, hdefinitions, htraits, rfl⟩ :=
      ofDefinition_eq_ok_iff.mp hplan
    exact ⟨descriptions_of_namedTypes formats hdefinitions, descriptions_of_namedTypes formats htraits⟩

/-- A string with much besides. -/
def remarked : Fragment where
  keywords := { Keywords.none with
    type := some "string", reference := some "#/$defs/Id", required := some ["id"]
    description := some "An id." }
  oneOf := some []
  properties := some [("id", .empty)]
  additional := some (.schema .empty)
  items := some .empty

def plain : Fragment :=
  { Fragment.empty with keywords := { Keywords.none with type := some "string" } }

theorem erased_remarked : remarked.erased = plain.erased := by
  rw [Fragment.erased_eq, Fragment.erased_eq]
  rfl

/-- A document with an empty track, and a track with a key of its own that lists tracks. -/
def chatty : PlanDefinition where
  tracks := ⟨[("Tap", none), ("Open", some { EventDefinition.empty with
    key := some "Other", tracks := ["Close"], required := some ["id", "name"]
    properties := some ⟨[("id", remarked)], by decide⟩ })], by decide⟩
  screens := ⟨[("Home", some { EventDefinition.empty with
    key := some "Start", tracks := ["Tap"] })], by decide⟩
  definitions := ⟨[("Id", remarked)], by decide⟩
  traits := .empty

def terse : PlanDefinition where
  tracks := ⟨[("Tap", some .empty), ("Open", some { EventDefinition.empty with
    required := some ["id"]
    properties := some ⟨[("id", plain)], by decide⟩ })], by decide⟩
  screens := ⟨[("Home", some { EventDefinition.empty with tracks := ["Tap"] })], by decide⟩
  definitions := ⟨[("Id", plain.describedAs (some "An id."))], by decide⟩
  traits := .empty

theorem chatty_outcome :
    remarked.erased = plain.erased ∧
    Shape.ofFragment .standard remarked = Shape.ofFragment .standard plain ∧
    chatty.erased = terse.erased ∧
    ∃ plan, ofDefinition .standard chatty = .ok plan ∧ ofDefinition .standard terse = .ok plan ∧
      plan.definitions.map (fun type => (type.name, type.description)) =
        [("Id", some "An id.")] := by
  obtain ⟨-, hfragments, -, hdocuments, hdescriptions⟩ := outcome_of_erased .standard
  have hsame : chatty.erased = terse.erased := by
    have hplain : (plain.describedAs (some "An id.")).erased = plain.erased := by
      rw [Fragment.erased_eq, Fragment.erased_eq]
      rfl
    unfold PlanDefinition.erased EventDefinition.erased Fragment.erasedType Dict.mapValues
    simp only [chatty, terse, EventDefinition.empty, Dict.empty, List.map_cons, List.map_nil,
      Prod.map_apply, id_eq, Option.getD_none, Option.getD_some, erased_remarked, hplain,
      PlanDefinition.mk.injEq, Dict.mk.injEq, List.cons.injEq, Prod.mk.injEq, Option.some.injEq,
      EventDefinition.mk.injEq, and_true, true_and]
    exact ⟨rfl, rfl, rfl⟩
  have hplan : ofDefinition .standard chatty = .ok _ := eq_ok_of_isOk (by decide +kernel)
  exact ⟨erased_remarked, hfragments _ _ erased_remarked, hsame, _, hplan,
    (hdocuments _ _ hsame).symm.trans hplan, (hdescriptions _ _ hplan).1⟩

end Plan

end TrackingPlan
