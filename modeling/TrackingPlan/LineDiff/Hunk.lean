import TrackingPlan.LineDiff.Shortest
import TrackingPlan.LineDiff.Tidy

/-!
# Hunks

Changes are shown with a few kept lines around them. Changes with at most
twice as many kept lines between them are in one hunk.
-/

namespace TrackingPlan.LineDiff

/-- A line as it is shown. -/
inductive Change where
  | kept (line : String)
  | dropped (line : String)
  | added (line : String)
  deriving DecidableEq, Repr, Inhabited

/-- Kept lines before the first change, without those that are not shown. -/
def trimFirst (context : Nat) : List Edit → List Edit
  | .keep old new count :: rest =>
    let skipped := count - context
    .keep (old + skipped) (new + skipped) (count - skipped) :: rest
  | edits => edits

/-- Kept lines after the last change, without those that are not shown. -/
def trimLast (context : Nat) : List Edit → List Edit
  | [] => []
  | [.keep old new count] => [.keep old new (min count context)]
  | edit :: rest => edit :: trimLast context rest

/-- The edits after a hunk that has begun. Kept lines alone are no hunk. -/
def hunksFrom (context : Nat) (hunk : List Edit) : List Edit → List (List Edit)
  | [] =>
    match hunk with
    | [] => []
    | [.keep ..] => []
    | hunk => [hunk]
  | .keep old new count :: rest =>
    if context * 2 < count then
      let skipped := count - context
      (hunk ++ [.keep old new context]) ::
        hunksFrom context [.keep (old + skipped) (new + skipped) context] rest
    else hunksFrom context (hunk ++ [.keep old new count]) rest
  | edit :: rest => hunksFrom context (hunk ++ [edit]) rest

/-- The hunks of edits, with that many kept lines around changes. -/
def hunks (context : Nat) (edits : List Edit) : List (List Edit) :=
  hunksFrom context [] (trimLast context (trimFirst context edits))

/-- The lines of an edit. -/
def Edit.changes (old new : Array String) : Edit → List Change
  | keep start _ count => (old.extract start (start + count)).toList.map .kept
  | drop start count => (old.extract start (start + count)).toList.map .dropped
  | add start count => (new.extract start (start + count)).toList.map .added

/-- The edits from one sequence of lines to another. -/
def edits (old new : Array String) : List Edit := tidy old new (shortestEdits old new)

/-- A way to compare lines: the edits from one sequence to another, and the groups in which
edits are shown with so many kept lines around them. -/
structure Comparison where
  edits : Array String → Array String → List Edit
  groups : Nat → List Edit → List (List Edit)

/-- Lines are compared by a shortest way from one sequence to the other, in hunks. -/
def Comparison.standard : Comparison := ⟨LineDiff.edits, hunks⟩

end TrackingPlan.LineDiff
