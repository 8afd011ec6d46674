import TrackingPlan.TrackingFunction
import TrackingPlan.TypeScript.Printer

/-!
# The layout of a plan in modules

- `shared-definitions` has the names of all features and screens and every
  definition of the plan.
- `screens/<name>` has a screen and its tracks.
- `tracks` has every track.
- `shared-traits` has every trait.

Several groups of items may belong to one module; they follow each other there.
-/

namespace TrackingPlan

open TypeScript

/-- Items of the module at a path. -/
structure ModuleGroup where
  path : List String
  items : List Item
  deriving Inhabited

structure LayoutOptions where
  /-- The path of the implementation, seen from the root of all modules. -/
  implementation : Option String
  isAsync : Bool
  deriving Inhabited

/-- A path from the root, seen from that many directories below it. -/
def relativeTo (depth : Nat) (path : String) : String :=
  let chars := path.toList
  let chars := if ['.', '/'].isPrefixOf chars then chars.drop 2 else chars
  let path := String.ofList chars
  if 0 < depth then Text.times depth "../" ++ path
  else if ['.', '.', '/'].isPrefixOf chars then path
  else "./" ++ path

def sharedImport (depth : Nat) : Item :=
  .imported (.allAs sharedAlias (relativeTo depth sharedDefinitions))

/-- The imports of a module that many directories below the root. -/
def moduleImports (options : LayoutOptions) (depth : Nat) : List Item :=
  sharedImport depth ::
    (options.implementation.map fun path =>
      Item.imported (.defaultAs "implementation" (relativeTo depth path))).toList

/-- The type of all the names: no value when there is no name. -/
def namesType (names : List String) : Except Fault Ty :=
  if names.isEmpty then .ok (.primitive .never)
  else do
    let shape ← Shape.enumeration (names.map Literal.string) (.string none)
    return shape.toType .empty

def namesItems (name comment : String) (names : List String) : Except Fault (List Item) := do
  return [.comment comment, .typeAlias name (← namesType names)]

namespace Plan

/-- The groups of items of a plan, in the order in which they are written. -/
def toGroups (options : LayoutOptions) (plan : Plan) : Except Fault (List ModuleGroup) := do
  let functions : FunctionOptions :=
    ⟨options.implementation.isSome, options.isAsync, .shared⟩
  let features ← namesItems "FeatureNames" "List of all the feature names"
    (plan.features.map (·.name))
  let screenNames ← namesItems "ScreenNames" "List of all the screen names"
    (plan.screens.map (·.event.name))
  let screens ← plan.screens.mapM fun screen => do
    let items ← screen.toItems functions plan
    return ModuleGroup.mk ["screens", screen.event.exportName] (moduleImports options 1 ++ items)
  let tracks ← plan.tracks.mapM fun track => do
    return ModuleGroup.mk ["tracks"] (← track.toItems functions plan)
  let definitions := plan.definitions.map fun type =>
    ModuleGroup.mk [sharedDefinitions] (type.toItems .empty)
  let traits := plan.traits.map fun type =>
    ModuleGroup.mk ["shared-traits"] (type.toItems .shared)
  return [⟨[sharedDefinitions], features ++ screenNames⟩] ++ screens ++
    [⟨["tracks"], moduleImports options 0⟩, ⟨["shared-traits"], [sharedImport 0]⟩] ++
    tracks ++ definitions ++ traits

end Plan

/-- The modules with one group more: at the end of the module with its path, or
as a new module. -/
def addGroup (group : ModuleGroup) : List ModuleGroup → List ModuleGroup
  | [] => [group]
  | first :: rest =>
    if first.path = group.path then ⟨first.path, first.items ++ group.items⟩ :: rest
    else first :: addGroup group rest

/-- One group for each path, in the order in which the paths came first. -/
def mergeGroups (groups : List ModuleGroup) : List ModuleGroup :=
  groups.foldl (fun merged group => addGroup group merged) []

end TrackingPlan
