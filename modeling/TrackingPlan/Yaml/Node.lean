import TrackingPlan.Yaml.Token

/-!
# Document trees

A document is one node. An alias stays in the tree as the number of its
anchor, so a document may refer to itself.
-/

namespace TrackingPlan.Yaml

/-- What precedes the content of a node. -/
structure Properties where
  /-- The number of the node's anchor. -/
  anchor : Option Nat
  /-- The tag, with its handle resolved. -/
  tag : Option Tag
  deriving DecidableEq, Repr, Inhabited

inductive Node where
  | alias (anchor : Nat)
  | scalar (properties : Properties) (style : Style) (text : String)
  | sequence (properties : Properties) (items : List Node)
  | mapping (properties : Properties) (entries : List (Node × Node))
  deriving Inhabited

namespace Node

/-- An empty node, as it stands where a value is left out. -/
def empty : Node := .scalar ⟨none, none⟩ .plain ""

/-- The anchored nodes of a tree, each with its number, in document order. -/
def anchored (node : Node) : List (Nat × Node) :=
  match node with
  | .alias _ => []
  | .scalar properties style text =>
    (properties.anchor.map fun anchor => (anchor, .scalar properties style text)).toList
  | .sequence properties items =>
    (properties.anchor.map fun anchor => (anchor, .sequence properties items)).toList ++
      itemsAnchored items
  | .mapping properties entries =>
    (properties.anchor.map fun anchor => (anchor, .mapping properties entries)).toList ++
      entriesAnchored entries
where
  itemsAnchored : List Node → List (Nat × Node)
    | [] => []
    | item :: rest => anchored item ++ itemsAnchored rest
  entriesAnchored : List (Node × Node) → List (Nat × Node)
    | [] => []
    | (key, value) :: rest => anchored key ++ anchored value ++ entriesAnchored rest

/-- The number of marks that write the tree out: one for a scalar or an alias,
two around a collection. -/
def size (node : Node) : Nat :=
  match node with
  | .alias _ => 1
  | .scalar .. => 1
  | .sequence _ items => 2 + itemsSize items
  | .mapping _ entries => 2 + entriesSize entries
where
  itemsSize : List Node → Nat
    | [] => 0
    | item :: rest => size item + itemsSize rest
  entriesSize : List (Node × Node) → Nat
    | [] => 0
    | (key, value) :: rest => size key + size value + entriesSize rest

end Node

end TrackingPlan.Yaml
