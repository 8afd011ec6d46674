import TrackingPlan.Render

/-!
# Tracking functions

Every event becomes a function of its payload and, optionally, its source. The
function fills in what is known of the source, unless the caller says
otherwise, and hands everything to the implementation or to the console.
-/

namespace TrackingPlan

open TypeScript

structure FunctionOptions where
  /-- An implementation is imported; without one, events go to the console. -/
  hasImplementation : Bool
  /-- Functions are `async` and await the implementation. -/
  isAsync : Bool
  mappings : ImportMappings

/-- The payload; an event without properties takes none. -/
def payloadParameter (mappings : ImportMappings) (payload : ObjectShape) : Parameter :=
  if payload.properties.isEmpty then ⟨"props", some (.primitive .null), true⟩
  else ⟨"props", some (payload.toType mappings), false⟩

/-- The statement that hands an event on. -/
def handOver (options : FunctionOptions) : Expr :=
  let arguments := ["type", "name", "props", "overwrittenSource"].map Expr.name
  if options.hasImplementation then
    let call := Expr.call (.name "implementation") arguments
    if options.isAsync then .await call else call
  else .call (.property (.name "console") "log") arguments

/-- The function for an event that can happen under the names. -/
def trackingFunction (options : FunctionOptions) (event : Event) (names : SourceNames) :
    Except Fault Arrow := do
  let source ← names.toObject
  let known ← source.literalMembers
  return {
    isAsync := options.isAsync
    parameters := [
      payloadParameter options.mappings event.payload,
      ⟨"source", some (source.toType options.mappings), true⟩]
    body := [
      .const "type" (.string event.kind.text),
      .const "name" (.string event.name),
      .const "overwrittenSource" (.object (known ++ [.spread (.name "source")])),
      .expression (handOver options)] }

/-- The comment of an item, if there is a description. -/
def commentItems (description : Option String) : List Item :=
  (description.map Item.comment).toList

namespace Track

def toFunction (options : FunctionOptions) (plan : Plan) (track : Track) : Except Fault Arrow :=
  trackingFunction options track.event (.ofTrack plan track)

/-- The export of a track under its name, after its description. -/
def toItems (options : FunctionOptions) (plan : Plan) (track : Track) :
    Except Fault (List Item) := do
  let function ← inContext (Plan.entryLabel "track" track.event.key)
    (track.toFunction options plan)
  return commentItems track.event.description ++
    [.const track.event.exportName function.toExpr]

end Track

namespace Screen

def toFunction (options : FunctionOptions) (plan : Plan) (screen : Screen) : Except Fault Arrow :=
  trackingFunction options screen.event (.ofScreen plan screen)

/-- The function of a screen as the default export of its module, then the
exports of its tracks. -/
def toItems (options : FunctionOptions) (plan : Plan) (screen : Screen) :
    Except Fault (List Item) := do
  let label := Plan.entryLabel "screen" screen.event.key
  let function ← inContext label (screen.toFunction options plan)
  let tracks ← screen.tracks.mapM fun track => inContext label (track.toItems options plan)
  return commentItems screen.event.description ++
    .defaultExport function.toExpr :: tracks.flatten

end Screen

end TrackingPlan
