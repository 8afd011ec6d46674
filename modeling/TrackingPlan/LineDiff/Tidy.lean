import TrackingPlan.LineDiff.Edit

/-!
# Tidy edits

Added lines can often be taken from one of several places: where the lines
before them end like the added lines, the addition may move up, and likewise
down. Additions move up as far as they can and then down as far as they can,
and join those they meet. Then every change drops lines first and adds after
that.
-/

namespace TrackingPlan.LineDiff

/-- An edit among those before it, the nearest first, and those after it. -/
structure Focus where
  before : List Edit
  edit : Edit
  after : List Edit

/-- Kept lines behind an addition that moved up past them. -/
def growLeft (old new count : Nat) : List Edit → List Edit
  | .keep next nextNew size :: rest => .keep (next - count) (nextNew - count) (size + count) :: rest
  | rest => .keep (old - count) (new - count) count :: rest

/-- Kept lines in front of an addition that moved down past them. -/
def growRight (old new count : Nat) : List Edit → List Edit
  | .keep last lastNew size :: rest => .keep last lastNew (size + count) :: rest
  | rest => .keep old new count :: rest

/-- One step up, if there is one. -/
def Focus.up? (old new : Array String) (focus : Focus) : Option Focus :=
  match focus.before with
  | [] => none
  | previous :: before =>
    match focus.edit, previous with
    | .add start count, .keep o n size =>
      let shared := commonEnd old new ⟨o, o + size⟩ ⟨start, start + count⟩
      if 0 < shared then
        some {
          before := if size = shared then before else .keep o n (size - shared) :: before
          edit := .add (start - shared) count
          after := growLeft (o + size) (start + count) shared focus.after }
      else if size = 0 then some { focus with before }
      else none
    | .drop .., .keep _ _ size => if size = 0 then some { focus with before } else none
    | .add _ count, .add start size => some { focus with before, edit := .add start (size + count) }
    | .drop _ count, .drop start size =>
      some { focus with before, edit := .drop start (size + count) }
    | .keep .., _ => none
    | _, _ => some { focus with before, after := previous :: focus.after }

/-- One step down, if there is one. -/
def Focus.down? (old new : Array String) (focus : Focus) : Option Focus :=
  match focus.after with
  | [] => none
  | next :: after =>
    match focus.edit, next with
    | .add start count, .keep o n size =>
      let shared := commonStart old new ⟨o, o + size⟩ ⟨start, start + count⟩
      if 0 < shared then
        some {
          before := growRight o start shared focus.before
          edit := .add (start + shared) count
          after :=
            if size = shared then after
            else .keep (o + shared) (n + shared) (size - shared) :: after }
      else if size = 0 then some { focus with after }
      else none
    | .drop .., .keep _ _ size => if size = 0 then some { focus with after } else none
    | .add start count, .add _ size => some { focus with after, edit := .add start (count + size) }
    | .drop start count, .drop _ size =>
      some { focus with after, edit := .drop start (count + size) }
    | .keep .., _ => none
    | _, _ => some { focus with before := next :: focus.before, after }

/-- Repeat a step while it is possible. -/
def Focus.exhaust (step : Focus → Option Focus) : Nat → Focus → Focus
  | 0, focus => focus
  | fuel + 1, focus =>
    match step focus with
    | some next => exhaust step fuel next
    | none => focus

/-- Move every edit that is asked for, from the first one on. -/
def settle (old new : Array String) (moves : Edit → Bool) (bound : Nat) :
    Nat → List Edit → List Edit → List Edit
  | 0, before, after => before.reverse ++ after
  | _, before, [] => before.reverse
  | fuel + 1, before, edit :: after =>
    if moves edit then
      let focus := Focus.exhaust (·.up? old new) bound ⟨before, edit, after⟩
      let focus := focus.exhaust (·.down? old new) bound
      settle old new moves bound fuel (focus.edit :: focus.before) focus.after
    else settle old new moves bound fuel (edit :: before) after

def isDrop : Edit → Bool
  | .drop .. => true
  | _ => false

def isAdd : Edit → Bool
  | .add .. => true
  | _ => false

/-- The lines of a change so far: what is dropped and what is added. -/
def changeEdits (dropped added : Option (Nat × Nat)) : List Edit :=
  (dropped.map fun (start, count) => Edit.drop start count).toList ++
    (added.map fun (start, count) => Edit.add start count).toList

/-- A range, or one that goes on by a count. -/
def extend (range : Option (Nat × Nat)) (start count : Nat) : Option (Nat × Nat) :=
  match range with
  | some (first, size) => some (first, size + count)
  | none => some (start, count)

/-- One edit for kept lines that follow each other, and for each change what it
drops and then what it adds. -/
def combine (dropped added : Option (Nat × Nat)) : List Edit → List Edit
  | [] => changeEdits dropped added
  | .drop start count :: rest => combine (extend dropped start count) added rest
  | .add start count :: rest => combine dropped (extend added start count) rest
  | .keep old new count :: rest =>
    changeEdits dropped added ++
      match combine none none rest with
      | .keep _ _ size :: others => .keep old new (count + size) :: others
      | others => .keep old new count :: others

/-- The same edits, moved and joined. -/
def tidy (old new : Array String) (edits : List Edit) : List Edit :=
  let bound := (old.size + new.size + edits.length + 1) * 2
  let edits := settle old new isDrop bound (bound * bound) [] edits
  combine none none (settle old new isAdd bound (bound * bound) [] edits)

end TrackingPlan.LineDiff
