import TrackingPlan.Event

/-!
# Plans

A plan holds its features, screens and tracks in order, linked by their
places, and the shapes of its definitions and traits. It is built in one pass:
tracks, then screens with the tracks they list, then definitions and traits.
-/

namespace TrackingPlan

/-- A type of the plan with a name. -/
structure NamedType where
  name : String
  type : Shape
  description : Option String
  deriving Inhabited

structure Plan where
  features : List Feature
  screens : List Screen
  tracks : List Track
  definitions : List NamedType
  traits : List NamedType
  deriving Inhabited

namespace Plan

def empty : Plan := ⟨[], [], [], [], []⟩

def feature? (plan : Plan) (id : FeatureId) : Option Feature := plan.features[id.index]?

def screen? (plan : Plan) (id : ScreenId) : Option Screen := plan.screens[id.index]?

def track? (plan : Plan) (id : TrackId) : Option Track := plan.tracks[id.index]?

def findTrackId? (plan : Plan) (key : String) : Option TrackId :=
  (plan.tracks.findIdx? (·.event.key == key)).map TrackId.mk

def findTrack? (plan : Plan) (key : String) : Option Track :=
  plan.tracks.find? (·.event.key == key)

def findScreen? (plan : Plan) (key : String) : Option Screen :=
  plan.screens.find? (·.event.key == key)

def findFeature? (plan : Plan) (name : String) : Option Feature :=
  plan.features.find? (·.name == name)

/-- The feature with the name, which is added to the plan at its first mention. -/
def internFeature (plan : Plan) (name : String) : Plan × FeatureId :=
  match plan.features.findIdx? (·.name == name) with
  | some index => (plan, ⟨index⟩)
  | none =>
    ({ plan with features := plan.features ++ [⟨name, [], []⟩] }, ⟨plan.features.length⟩)

/-- The features of an event by name, each once. -/
def internFeatures (plan : Plan) (names : List String) : Plan × List FeatureId :=
  names.foldl (fun (plan, ids) name =>
    let (plan, id) := plan.internFeature name
    (plan, if ids.contains id then ids else ids ++ [id])) (plan, [])

/-- The event at a key of the document. A key of its own means nothing there. -/
def addEvent (formats : FormatRegistry) (kind : EventKind) (key : String)
    (definition : Option EventDefinition) (plan : Plan) : Except Fault (Plan × Event) := do
  let definition := { definition.getD .empty with key := some key }
  let event ← Event.ofDefinition formats kind definition
  let (plan, features) := plan.internFeatures definition.features
  return (plan, { event with features })

/-- The features with one event more in those the event belongs to. -/
def linkFeatures (features : List Feature) (ids : List FeatureId) (link : Feature → Feature) :
    List Feature :=
  features.mapIdx fun index feature => if ids.contains ⟨index⟩ then link feature else feature

def addTrack (formats : FormatRegistry) (key : String) (definition : Option EventDefinition)
    (plan : Plan) : Except Fault Plan := do
  let (plan, event) ← plan.addEvent formats .track key definition
  let id : TrackId := ⟨plan.tracks.length⟩
  return { plan with
    features := linkFeatures plan.features event.features fun feature =>
      { feature with tracks := feature.tracks ++ [id] }
    tracks := plan.tracks ++ [⟨event, []⟩] }

/-- The plan in which the track is fired on the screen, and the screen's copy of it. -/
def addListed (id : ScreenId) (screen : Event) (plan : Plan) (key : String) :
    Except Fault (Plan × Track) :=
  match plan.findTrackId? key, plan.findTrack? key with
  | some trackId, some track =>
    let linked := if track.screens.contains id then track
      else { track with screens := track.screens ++ [id] }
    .ok ({ plan with tracks := plan.tracks.set trackId.index linked }, track.onScreen id screen)
  | _, _ => .error (.ofCause (.notFound "tracks" key))

def addListedAll (id : ScreenId) (screen : Event) (plan : Plan) :
    List String → Except Fault (Plan × List Track)
  | [] => .ok (plan, [])
  | key :: rest => do
    let (plan, copy) ← plan.addListed id screen key
    let (plan, copies) ← plan.addListedAll id screen rest
    return (plan, copy :: copies)

def addScreen (formats : FormatRegistry) (key : String) (definition : Option EventDefinition)
    (plan : Plan) : Except Fault Plan := do
  let (plan, event) ← plan.addEvent formats .screen key definition
  let id : ScreenId := ⟨plan.screens.length⟩
  let (plan, tracks) ← plan.addListedAll id event (definition.getD .empty).tracks
  return { plan with
    features := linkFeatures plan.features event.features fun feature =>
      { feature with screens := feature.screens ++ [id] }
    screens := plan.screens ++ [⟨event, tracks⟩] }

/-- The label of an entry of a section in messages. -/
def entryLabel (section_ name : String) : String := section_ ++ " `" ++ name ++ "`"

/-- The named types of a section in order. -/
def namedTypes (formats : FormatRegistry) (section_ : String) (definitions : Dict Fragment) :
    Except Fault (List NamedType) :=
  definitions.entries.mapM fun (name, fragment) => do
    let type ← inContext (entryLabel section_ name) (Shape.ofFragment formats fragment)
    return ⟨name, type, fragment.keywords.description⟩

/-- The plan that a document describes. -/
def ofDefinition (formats : FormatRegistry) (definition : PlanDefinition) : Except Fault Plan := do
  let plan ← definition.tracks.entries.foldlM (fun plan (key, track) =>
    inContext (entryLabel "track" key) (plan.addTrack formats key track)) empty
  let plan ← definition.screens.entries.foldlM (fun plan (key, screen) =>
    inContext (entryLabel "screen" key) (plan.addScreen formats key screen)) plan
  let definitions ← namedTypes formats "$defs" definition.definitions
  let traits ← namedTypes formats "traits" definition.traits
  return { plan with definitions, traits }

end Plan

end TrackingPlan
