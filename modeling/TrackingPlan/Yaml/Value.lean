import TrackingPlan.Yaml.Reading

/-!
# Data without a declared type

A document part of which nothing is known is read as a tree of scalars, lists
and mappings. A mapping may have any keys, and repeated ones.
-/

namespace TrackingPlan.Yaml

inductive Value where
  | scalar (scalar : Scalar)
  | sequence (items : List Value)
  | mapping (entries : List (Value × Value))
  deriving Inhabited

namespace Read

def value : Nat → Node → Read Value
  | depth, node => do
    match ← follow node with
    | .scalar properties style text => return .scalar (← scalar properties style text)
    | .sequence properties items =>
      refuseLocalTag properties
      match depth with
      | 0 => fail "recursion limit exceeded"
      | depth + 1 => return .sequence (← items.mapM (value depth))
    | .mapping properties entries =>
      refuseLocalTag properties
      match depth with
      | 0 => fail "recursion limit exceeded"
      | depth + 1 =>
        return .mapping (← entries.mapM fun entry => do
          return (← value depth entry.1, ← value depth entry.2))
    | .alias _ => fail "unresolved alias"

end Read

end TrackingPlan.Yaml
