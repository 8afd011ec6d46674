import TrackingPlan.Schema.Definition
import TrackingPlan.Shape.Normalize

/-!
# Events

Screens and tracks are events: they have a key, a name to report, a payload
and the features they belong to. Events refer to each other by their places in
the plan.
-/

namespace TrackingPlan

/-- The place of a feature in its plan. -/
structure FeatureId where
  index : Nat
  deriving DecidableEq, Repr, Inhabited

/-- The place of a screen in its plan. -/
structure ScreenId where
  index : Nat
  deriving DecidableEq, Repr, Inhabited

/-- The place of a track in its plan. -/
structure TrackId where
  index : Nat
  deriving DecidableEq, Repr, Inhabited

inductive EventKind where
  | screen
  | track
  deriving DecidableEq, Repr, Inhabited

/-- The text that a generated function reports. -/
def EventKind.text : EventKind → String
  | screen => "screen"
  | track => "track"

structure Event where
  kind : EventKind
  key : String
  name : String
  description : Option String
  additionalProperties : Bool
  loginRequired : Option Bool
  payload : ObjectShape
  /-- In the order of first mention. -/
  features : List FeatureId
  deriving Inhabited

/-- The name under which an event is exported: spaces are dropped and every `&`
is an `n`. Different keys may share one. -/
def exportName (key : String) : String :=
  String.ofList ((key.toList.filter (· != ' ')).map fun c => if c = '&' then 'n' else c)

namespace Event

def exportName (event : Event) : String := TrackingPlan.exportName event.key

/-- An event without any links. -/
def ofDefinition (formats : FormatRegistry) (kind : EventKind) (definition : EventDefinition) :
    Except Fault Event := do
  match definition.key with
  | none => .error (.ofCause (.missingField "key"))
  | some key =>
    let payload ← Record.ofFragment formats definition.payload
    return {
      kind
      key
      name := definition.name.getD key
      description := definition.description
      additionalProperties := definition.additionalProperties.getD false
      loginRequired := definition.loginRequired
      payload
      features := [] }

end Event

/-- A feature of the product with the events that belong to it. -/
structure Feature where
  name : String
  screens : List ScreenId
  tracks : List TrackId
  deriving DecidableEq, Repr, Inhabited

/-- An action of a user. A track of the plan knows every screen it is fired on;
the copy that a screen holds knows that one only. -/
structure Track where
  event : Event
  screens : List ScreenId
  deriving Inhabited

/-- A screen with its own copies of the tracks fired on it. -/
structure Screen where
  event : Event
  tracks : List Track
  deriving Inhabited

/-- The copy of a track for one screen: it belongs to the features of the screen. -/
def Track.onScreen (track : Track) (id : ScreenId) (screen : Event) : Track where
  event := { track.event with features := screen.features }
  screens := [id]

end TrackingPlan
