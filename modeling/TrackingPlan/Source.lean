import TrackingPlan.Plan

/-!
# Sources

The source of an event says where it happened. The features and screens that
an event can happen under are known from the plan: a single one is the
default, several are the alternatives, and with none the caller has to name
one of the whole plan.
-/

namespace TrackingPlan

/-- The names an event can happen under, each once, in the order of discovery. -/
structure SourceNames where
  features : List String
  screens : List String
  deriving DecidableEq, Repr, Inhabited

namespace SourceNames

def featureNames (plan : Plan) (ids : List FeatureId) : List String :=
  ids.filterMap fun id => (plan.feature? id).map (·.name)

/-- A track happens on the screens it is fired on, under their features and its own. -/
def ofTrack (plan : Plan) (track : Track) : SourceNames :=
  let screens := track.screens.filterMap plan.screen?
  { features := (screens.flatMap (fun screen => featureNames plan screen.event.features) ++
      featureNames plan track.event.features).eraseDups
    screens := (screens.map (·.event.name)).eraseDups }

def ofScreen (plan : Plan) (screen : Screen) : SourceNames where
  features := (featureNames plan screen.event.features).eraseDups
  screens := [screen.event.name]

end SourceNames

/-- The type of all feature names of a plan. -/
def featureNamesReference : Reference := ⟨"#/$defs/FeatureNames"⟩

/-- The type of all screen names of a plan. -/
def screenNamesReference : Reference := ⟨"#/$defs/ScreenNames"⟩

/-- The property for one kind of name. It may be left out when only one name is possible. -/
def narrowedProperty (property : String) (all : Reference) :
    List String → Except Fault (Property Shape)
  | [] => .ok ⟨property, .reference all, true⟩
  | [name] => .ok ⟨property, .constantString name, false⟩
  | names => do
    let type ← Shape.unionOf (names.map Shape.constantString)
    return ⟨property, type, true⟩

/-- The source of an event as an object. What is not known from the plan is an
optional string. -/
def SourceNames.toObject (names : SourceNames) : Except Fault ObjectShape := do
  let feature ← narrowedProperty "feature" featureNamesReference names.features
  let screen ← narrowedProperty "screen" screenNamesReference names.screens
  let free (name : String) : Property Shape := ⟨name, .string none, false⟩
  return ⟨[feature, screen, free "widget", free "element", free "action"], false⟩

end TrackingPlan
