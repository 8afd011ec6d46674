import TrackingPlan.Disk.UnreliableTree
import TrackingPlan.Proofs.Disk.Written

/-!
# Disks that hold a tree

What is known of a disk when it is a tree of files on which changes may go
wrong. Reading answers what is in the tree. A change that goes well is one of
the tree, and one that fails leaves all files and directories as they are, but
for a file that could not be written.
-/

namespace TrackingPlan

/-- The disk is a tree of files, to which nothing else is done than what is asked for. -/
structure Disk.HoldsTree {σ : Type} [Disk (StateM σ)] (treeOf : σ → FileTree) : Prop where
  workingDirectory (state : σ) : (Disk.workingDirectory : StateM σ (List String)).run state =
    ((treeOf state).workingDirectory, state)
  isFile (path : Path) (state : σ) : (Disk.isFile path : StateM σ Bool).run state =
    ((treeOf state).isFile path, state)
  isDirectory (path : Path) (state : σ) : (Disk.isDirectory path : StateM σ Bool).run state =
    ((treeOf state).isDirectory path, state)
  readText (path : Path) (state : σ) :
    (Disk.readText path : StateM σ (Except DiskFault String)).run state =
      ((treeOf state).readText path, state)
  makeDirectory (path : Path) (state : σ) :
    match (Disk.makeDirectory path : StateM σ (Except DiskFault Unit)).run state with
    | (.ok (), after) => (treeOf state).makeDirectory path = .ok (treeOf after)
    | (.error _, after) => treeOf after = treeOf state
  /-- A file that could not be written is as it was, or has been opened and holds anything. -/
  writeText (path : Path) (text : String) (state : σ) :
    match (Disk.writeText path text : StateM σ (Except DiskFault Unit)).run state with
    | (.ok (), after) => (treeOf state).write path (.text text) = .ok (treeOf after)
    | (.error _, after) => treeOf after = treeOf state ∨
        ∃ left, (treeOf state).write path left = .ok (treeOf after)

namespace FileTree

/-- On a tree itself, changes fail only for reasons of the tree. -/
theorem holdsTree : Disk.HoldsTree fun tree : FileTree => tree where
  workingDirectory := fun _ => rfl
  isFile := fun _ _ => rfl
  isDirectory := fun _ _ => rfl
  readText := fun _ _ => rfl
  makeDirectory := fun path tree => by
    have hrun : (Disk.makeDirectory path : StateM FileTree (Except DiskFault Unit)).run tree = _ :=
      run_attempt (·.makeDirectory path) tree
    rw [hrun]
    cases tree.makeDirectory path <;> rfl
  writeText := fun path text tree => by
    have hrun : (Disk.writeText path text : StateM FileTree (Except DiskFault Unit)).run tree = _ :=
      run_attempt (·.write path (.text text)) tree
    rw [hrun]
    cases tree.write path (.text text) with
    | ok after => rfl
    | error fault => exact .inl rfl

end FileTree

namespace UnreliableTree

theorem spoiled_eq_or (path : Path) (mishap : Mishap) (tree : FileTree) :
    spoiled path mishap tree = tree ∨
      ∃ left, tree.write path left = .ok (spoiled path mishap tree) := by
  unfold spoiled
  cases mishap.left with
  | none => exact .inl rfl
  | some contents =>
      dsimp only
      cases hwrite : tree.write path contents with
      | error fault => exact .inl rfl
      | ok after => exact .inr ⟨contents, hwrite⟩

/-- Whatever goes wrong, an unreliable disk holds its tree. -/
theorem holdsTree : Disk.HoldsTree UnreliableTree.tree where
  workingDirectory := fun _ => rfl
  isFile := fun _ _ => rfl
  isDirectory := fun _ _ => rfl
  readText := fun _ _ => rfl
  makeDirectory := fun path ⟨tree, mishaps⟩ => by
    have hrun : (Disk.makeDirectory path : StateM UnreliableTree _).run ⟨tree, mishaps⟩ =
      attempt (·.makeDirectory path) (fun _ tree => tree) ⟨tree, mishaps⟩ := rfl
    rw [hrun, attempt]
    cases mishaps.head?.join with
    | some mishap => rfl
    | none => cases tree.makeDirectory path <;> rfl
  writeText := fun path text ⟨tree, mishaps⟩ => by
    have hrun : (Disk.writeText path text : StateM UnreliableTree _).run ⟨tree, mishaps⟩ =
      attempt (·.write path (.text text)) (spoiled path) ⟨tree, mishaps⟩ := rfl
    rw [hrun, attempt]
    cases mishaps.head?.join with
    | some mishap => exact spoiled_eq_or path mishap tree
    | none =>
        cases tree.write path (.text text) with
        | ok after => rfl
        | error fault => exact .inl rfl

end UnreliableTree

end TrackingPlan
