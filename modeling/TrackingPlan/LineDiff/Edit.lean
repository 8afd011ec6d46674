import TrackingPlan.Text.Lines

/-!
# Edits between two sequences of lines

An edit keeps, drops or adds consecutive lines. Edits that follow each other
cover both sequences in order; within a change, lines are dropped first.
-/

namespace TrackingPlan.LineDiff

/-- Consecutive lines of two sequences, by their places there. -/
inductive Edit where
  /-- Lines that are the same in both sequences. -/
  | keep (old new count : Nat)
  | drop (old count : Nat)
  | add (new count : Nat)
  deriving DecidableEq, Repr, Inhabited

/-- The lines of a text with their ends: a line feed, a carriage return, or both. -/
def splitLines : List Char → List (List Char)
  | [] => []
  | '\r' :: '\n' :: rest => ['\r', '\n'] :: splitLines rest
  | c :: rest =>
    if c = '\n' ∨ c = '\r' then [c] :: splitLines rest
    else
      match splitLines rest with
      | [] => [[c]]
      | line :: others => (c :: line) :: others

def linesOf (text : String) : Array String :=
  ((splitLines text.toList).map String.ofList).toArray

/-- A part of a sequence of lines. -/
structure Range where
  start : Nat
  stop : Nat

def Range.isEmpty (range : Range) : Bool := range.stop ≤ range.start

def Range.size (range : Range) : Nat := range.stop - range.start

/-- How many lines two ranges have in common at their start. -/
def commonStart (old new : Array String) (a b : Range) : Nat :=
  go (min a.size b.size) a.start b.start
where
  go : Nat → Nat → Nat → Nat
    | 0, _, _ => 0
    | fuel + 1, i, j => if old[i]? == new[j]? then go fuel (i + 1) (j + 1) + 1 else 0

/-- How many lines two ranges have in common at their end. -/
def commonEnd (old new : Array String) (a b : Range) : Nat :=
  go (min a.size b.size) a.stop b.stop
where
  go : Nat → Nat → Nat → Nat
    | 0, _, _ => 0
    | fuel + 1, i, j => if old[i - 1]? == new[j - 1]? then go fuel (i - 1) (j - 1) + 1 else 0

end TrackingPlan.LineDiff
