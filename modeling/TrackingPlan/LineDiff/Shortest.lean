import TrackingPlan.LineDiff.Edit

/-!
# Shortest edits

The shortest way from one sequence to the other is found from both ends at
once: on every diagonal the search from the start and the search from the end
go as far as a number of changes allows, until they meet. The sequences are
divided there and both parts are treated alike.
-/

namespace TrackingPlan.LineDiff

/-- How far a search has come on each diagonal. Diagonals count from
`-offset` up; places that were never reached are at zero. -/
structure Frontier where
  reached : Array Nat
  offset : Nat

namespace Frontier

def start (limit : Nat) : Frontier := ⟨Array.replicate (2 * limit + 3) 0, limit + 1⟩

def get (frontier : Frontier) (diagonal : Int) : Nat :=
  frontier.reached.getD (diagonal + frontier.offset).toNat 0

def set (frontier : Frontier) (diagonal : Int) (x : Nat) : Frontier :=
  { frontier with
    reached := frontier.reached.setIfInBounds (diagonal + frontier.offset).toNat x }

/-- Where a search enters a diagonal with one change more: from the diagonal
that has come farther. -/
def enter (frontier : Frontier) (changes diagonal : Int) : Nat :=
  if diagonal = -changes ∨
      (diagonal ≠ changes ∧ frontier.get (diagonal - 1) < frontier.get (diagonal + 1)) then
    frontier.get (diagonal + 1)
  else frontier.get (diagonal - 1) + 1

end Frontier

/-- Both searches on two ranges. -/
structure Search where
  a : Range
  b : Range
  forward : Frontier
  backward : Frontier

/-- A step from either end: where the two searches met, or the searches after it. -/
abbrev Step := Except (Nat × Nat) Search

/-- How many more lines of one sequence than of the other there are. -/
def Search.delta (search : Search) : Int := (search.a.size : Int) - search.b.size

/-- Go forward on a diagonal. -/
def Search.stepForward (old new : Array String) (changes diagonal : Int) (search : Search) :
    Step :=
  let n := search.a.size
  let x := search.forward.enter changes diagonal
  let y := (x : Int) - diagonal
  let advance :=
    if x < n ∧ 0 ≤ y ∧ y < search.b.size then
      commonStart old new ⟨search.a.start + x, search.a.stop⟩
        ⟨search.b.start + y.toNat, search.b.stop⟩
    else 0
  let opposite := diagonal - search.delta
  if search.delta % 2 ≠ 0 ∧ opposite.natAbs ≤ changes - 1 ∧
      n ≤ x + advance + search.backward.get (-opposite) then
    .error (search.a.start + x, search.b.start + y.toNat)
  else .ok { search with forward := search.forward.set diagonal (x + advance) }

/-- Go backward on a diagonal. -/
def Search.stepBackward (old new : Array String) (changes diagonal : Int) (search : Search) :
    Step :=
  let n := search.a.size
  let m := search.b.size
  let x := search.backward.enter changes diagonal
  let y := (x : Int) - diagonal
  let advance :=
    if x < n ∧ 0 ≤ y ∧ y < m then
      commonEnd old new ⟨search.a.start, search.a.stop - x⟩
        ⟨search.b.start, search.b.stop - y.toNat⟩
    else 0
  let x := x + advance
  let opposite := diagonal - search.delta
  if search.delta % 2 = 0 ∧ opposite.natAbs ≤ changes ∧
      n ≤ x + search.forward.get (-opposite) then
    .error (search.a.stop - x, search.b.stop - (y.toNat + advance))
  else .ok { search with backward := search.backward.set diagonal x }

/-- The diagonals that a number of changes can reach, the greatest first. -/
def diagonals (changes : Nat) : List Int :=
  (List.range (changes + 1)).map fun (i : Nat) => (changes : Int) - 2 * (i : Int)

/-- The place where the searches meet, with a growing number of changes. -/
def searchMeeting (old new : Array String) : Nat → Nat → Search → Option (Nat × Nat)
  | 0, _, _ => none
  | fuel + 1, changes, search =>
    let step : Step := do
      let search ← (diagonals changes).foldlM
        (fun search diagonal => search.stepForward old new changes diagonal) search
      (diagonals changes).foldlM
        (fun search diagonal => search.stepBackward old new changes diagonal) search
    match step with
    | .error place => some place
    | .ok search => searchMeeting old new fuel (changes + 1) search

/-- A place on a shortest way through two ranges that are not empty. -/
def meeting? (old new : Array String) (a b : Range) : Option (Nat × Nat) :=
  let limit := (a.size + b.size + 1) / 2 + 1
  searchMeeting old new limit 0 ⟨a, b, .start limit, .start limit⟩

/-- Edits that keep a number of lines, if there are any. -/
def keepSome (old new count : Nat) : List Edit :=
  if count = 0 then [] else [.keep old new count]

/-- Edits from one range to another. -/
def editsBetween (old new : Array String) : Nat → Range → Range → List Edit
  | 0, _, _ => []
  | fuel + 1, a, b =>
    let before := commonStart old new a b
    let a' : Range := ⟨a.start + before, a.stop⟩
    let b' : Range := ⟨b.start + before, b.stop⟩
    let after := commonEnd old new a' b'
    let inner : Range := ⟨a'.start, a'.stop - after⟩
    let innerNew : Range := ⟨b'.start, b'.stop - after⟩
    let edits :=
      if inner.isEmpty && innerNew.isEmpty then []
      else if innerNew.isEmpty then [.drop inner.start inner.size]
      else if inner.isEmpty then [.add innerNew.start innerNew.size]
      else
        match meeting? old new inner innerNew with
        | some (x, y) =>
          editsBetween old new fuel ⟨inner.start, x⟩ ⟨innerNew.start, y⟩ ++
            editsBetween old new fuel ⟨x, inner.stop⟩ ⟨y, innerNew.stop⟩
        | none => [.drop inner.start inner.size, .add innerNew.start innerNew.size]
    keepSome a.start b.start before ++ edits ++ keepSome inner.stop innerNew.stop after

/-- Shortest edits from one sequence of lines to another. -/
def shortestEdits (old new : Array String) : List Edit :=
  editsBetween old new (old.size + new.size + 1) ⟨0, old.size⟩ ⟨0, new.size⟩

end TrackingPlan.LineDiff
