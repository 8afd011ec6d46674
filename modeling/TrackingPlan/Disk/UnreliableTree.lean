import TrackingPlan.Disk.FileTree

/-!
# Disks on which changes go wrong

A disk may refuse what its tree of files would allow, say because it is full. A
directory is not made then. A file that is being written is opened first, which
takes its contents, and so a write that goes wrong may leave anything in it.
-/

namespace TrackingPlan

/-- How a change goes wrong. -/
structure Mishap where
  reason : DiskFault
  /-- What is in the file that was to be written, if it could be opened. -/
  left : Option Contents
  deriving DecidableEq, Repr, Inhabited

structure UnreliableTree where
  tree : FileTree
  /-- What happens to the next changes, one after the other. All that come later go well. -/
  mishaps : List (Option Mishap)
  deriving Inhabited

namespace UnreliableTree

/-- The tree after a file could not be written. -/
def spoiled (path : Path) (mishap : Mishap) (tree : FileTree) : FileTree :=
  match mishap.left with
  | none => tree
  | some contents =>
    match tree.write path contents with
    | .ok after => after
    | .error _ => tree

/-- Change the tree as far as the next mishap allows. -/
def attempt (change : FileTree → Except DiskFault FileTree)
    (wrong : Mishap → FileTree → FileTree) :
    StateM UnreliableTree (Except DiskFault Unit) := fun ⟨tree, mishaps⟩ =>
  match mishaps.head?.join with
  | some mishap => (.error mishap.reason, ⟨wrong mishap tree, mishaps.tail⟩)
  | none =>
    match change tree with
    | .ok after => (.ok (), ⟨after, mishaps.tail⟩)
    | .error fault => (.error fault, ⟨tree, mishaps.tail⟩)

instance : Disk (StateM UnreliableTree) where
  workingDirectory := return (← get).tree.workingDirectory
  isFile path := return (← get).tree.isFile path
  isDirectory path := return (← get).tree.isDirectory path
  readText path := return (← get).tree.readText path
  makeDirectory path := attempt (·.makeDirectory path) fun _ tree => tree
  writeText path text := attempt (·.write path (.text text)) (spoiled path)

end UnreliableTree

end TrackingPlan
