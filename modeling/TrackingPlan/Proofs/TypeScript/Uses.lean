import TrackingPlan.TypeScript.Syntax

/-!
# What code uses

Code uses identifiers, types and the results of asynchronous calls. Every use is
told with its surroundings: an identifier with the names that are bound where it
stands, by parameters and by constants before it, and an `await` with the
function it is in. Names of properties and members are no identifiers.
-/

namespace TrackingPlan.TypeScript

inductive Use where
  | name (name : String) (bound : List String)
  /-- The function around it may be asynchronous. -/
  | await (isAsync : Bool)
  | type (type : Ty)

/-- The constant that a statement binds for those behind it. -/
def Statement.binds : Statement → List String
  | .const name _ => [name]
  | .expression _ => []

/-- The types of parameters. -/
def parameterUses (parameters : List Parameter) : List Use :=
  parameters.filterMap fun parameter => parameter.type.map Use.type

mutual

/-- All uses in an expression, where the names are bound and the function around it is
asynchronous or not. -/
def Expr.uses (bound : List String) (isAsync : Bool) : Expr → List Use
  | .name name => [.name name bound]
  | .literal _ => []
  | .call callee arguments => callee.uses bound isAsync ++ expressionsUses bound isAsync arguments
  | .arrow inner parameters body =>
    parameterUses parameters ++ statementsUses (parameters.map (·.name) ++ bound) inner body
  | .object members => membersUses bound isAsync members
  | .property object _ => object.uses bound isAsync
  | .await operand => .await isAsync :: operand.uses bound isAsync

def expressionsUses (bound : List String) (isAsync : Bool) : List Expr → List Use
  | [] => []
  | expression :: rest => expression.uses bound isAsync ++ expressionsUses bound isAsync rest

def Member.uses (bound : List String) (isAsync : Bool) : Member → List Use
  | .property _ value => value.uses bound isAsync
  | .spread value => value.uses bound isAsync

def membersUses (bound : List String) (isAsync : Bool) : List Member → List Use
  | [] => []
  | member :: rest => member.uses bound isAsync ++ membersUses bound isAsync rest

def Statement.uses (bound : List String) (isAsync : Bool) : Statement → List Use
  | .const _ value => value.uses bound isAsync
  | .expression value => value.uses bound isAsync

/-- A constant is bound behind its statement only. -/
def statementsUses (bound : List String) (isAsync : Bool) : List Statement → List Use
  | [] => []
  | statement :: rest =>
    statement.uses bound isAsync ++ statementsUses (statement.binds ++ bound) isAsync rest

end

/-- All uses in an item. Around a module there is no function. -/
def Item.uses : Item → List Use
  | .typeAlias _ type => [.type type]
  | .const _ value => value.uses [] false
  | .defaultExport value => value.uses [] false
  | .imported _ => []
  | .comment _ => []

theorem membersUses_append (bound : List String) (isAsync : Bool) (first second : List Member) :
    membersUses bound isAsync (first ++ second) =
      membersUses bound isAsync first ++ membersUses bound isAsync second := by
  induction first with
  | nil => rfl
  | cons member rest ih =>
      rw [List.cons_append, membersUses, membersUses, ih, List.append_assoc]

end TrackingPlan.TypeScript
