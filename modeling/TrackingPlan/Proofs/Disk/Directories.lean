import Mathlib.Logic.Relation
import TrackingPlan.Proofs.Disk.Holding
import TrackingPlan.Proofs.Path.Location

/-!
# Directories that writing makes

A file is written after the missing directories on the way to it are made. New
directories are nowhere else than where a front of a path leads, which is the
path itself or what is left of it without its last names.
-/

namespace TrackingPlan

/-- The path itself, or what is left of it without some of its last names. -/
def Path.IsFront (front path : Path) : Prop :=
  Relation.ReflTransGen (fun whole above => whole.parent? = some above) path front

namespace FileTree

/-- A slash at its end does not change where a path leads. -/
theorem resolve?_trimSlashes (workingDirectory : List String) (path : Path) :
    (trimSlashes path).resolve? workingDirectory = path.resolve? workingDirectory := by
  have hslashes : ∀ chars : List Char, (chars.reverse.dropWhile (· == '/')).reverse ≠ [] →
      Path.names ⟨String.ofList (chars.reverse.dropWhile (· == '/')).reverse⟩ =
        Path.names ⟨String.ofList chars⟩ ∧
      (chars.reverse.dropWhile (· == '/')).reverse.head? = chars.head? := by
    intro chars
    induction chars using List.reverseRecOn with
    | nil => exact fun hempty => absurd rfl hempty
    | append_singleton before c ih =>
        rw [List.reverse_concat]
        by_cases hslash : c = '/'
        · subst hslash
          rw [List.dropWhile_cons_of_pos (by rfl)]
          intro hkept
          obtain ⟨hnames, hhead⟩ := ih hkept
          have hbefore : before ≠ [] := by
            rintro rfl
            exact hkept rfl
          have hmore : String.ofList (before ++ ['/']) = String.ofList before ++ "/" ++ "" := by
            apply String.toList_injective
            simp
          rw [hnames, hhead, hmore, Path.names_append_slash, Path.names_empty, List.append_nil,
            List.head?_append_of_ne_nil _ hbefore]
          exact ⟨rfl, rfl⟩
        · rw [List.dropWhile_cons_of_neg (by simpa using hslash), List.reverse_cons,
            List.reverse_reverse]
          exact fun _ => ⟨rfl, rfl⟩
  unfold trimSlashes
  dsimp only
  split
  next => rfl
  next hempty =>
    have hkept := List.isEmpty_iff.not.mp hempty
    obtain ⟨hnames, hhead⟩ := hslashes path.text.toList hkept
    have htext : path.text ≠ "" := by
      intro htext
      rw [htext] at hkept
      exact hkept rfl
    rw [Path.resolve?_eq_some htext, Path.resolve?_eq_some]
    · simp only [Path.location, Path.isAbsolute, String.toList_ofList, hnames, hhead,
        String.ofList_toList]
      rfl
    · exact fun h => hkept (by simpa using congrArg String.toList h)

/-- From one tree to another by writing texts, besides new directories where the
paths and their fronts lead. -/
structure WroteAlong (paths : List Path) (log : List (List String × String))
    (before after : FileTree) : Prop extends Wrote log before after where
  directory_new : ∀ location, after.look location = .directory →
    before.look location = .directory ∨ ∃ path ∈ paths, ∃ front : Path, front.IsFront path ∧
      front.resolve? before.workingDirectory = some location

namespace WroteAlong

variable {paths : List Path} {log : List (List String × String)} {before after : FileTree}

theorem refl (tree : FileTree) : WroteAlong [] [] tree tree :=
  ⟨Wrote.refl tree, fun _ hlook => .inl hlook⟩

theorem mono {others : List Path} (hwrote : WroteAlong paths log before after)
    (hfronts : ∀ path ∈ paths, ∃ other ∈ others, path.IsFront other) :
    WroteAlong others log before after where
  toWrote := hwrote.toWrote
  directory_new := fun location hlook => by
    rcases hwrote.directory_new location hlook with hbefore | ⟨path, hpath, front, hfront, hleads⟩
    · exact .inl hbefore
    · obtain ⟨other, hother, hpath⟩ := hfronts path hpath
      exact .inr ⟨other, hother, front, hpath.trans hfront, hleads⟩

theorem trans {others : List Path} {more : List (List String × String)} {last : FileTree}
    (hfirst : WroteAlong paths log before after) (hsecond : WroteAlong others more after last) :
    WroteAlong (paths ++ others) (log ++ more) before last where
  toWrote := hfirst.toWrote.trans hsecond.toWrote
  directory_new := fun location hlook => by
    rcases hsecond.directory_new location hlook with hafter | ⟨path, hpath, front, hfront, hleads⟩
    · rcases hfirst.directory_new location hafter with hbefore | ⟨path, hpath, hnew⟩
      · exact .inl hbefore
      · exact .inr ⟨path, List.mem_append_left others hpath, hnew⟩
    · rw [hfirst.workingDirectory_eq] at hleads
      exact .inr ⟨path, List.mem_append_right paths hpath, front, hfront, hleads⟩

end WroteAlong

theorem makeDirectory_wroteAlong {tree after : FileTree} {path : Path}
    (hmake : tree.makeDirectory path = .ok after) : WroteAlong [path] [] tree after where
  toWrote := makeDirectory_wrote hmake
  directory_new := fun other hother => by
    obtain ⟨location, hlocate, -, -, hafter⟩ := look_of_makeDirectory hmake
    rw [hafter] at hother
    split at hother
    next hsame =>
      subst hsame
      refine .inr ⟨path, List.mem_singleton_self path, path, .refl, ?_⟩
      rw [← resolve?_trimSlashes]
      exact resolve?_of_locate hlocate
    next => exact .inl hother

/-- A file is no directory, and nothing else is new. -/
theorem write_wroteAlong {tree after : FileTree} {path : Path} {text : String}
    (hwrite : tree.write path (.text text) = .ok after) :
    ∃ location, tree.locate path = .ok location ∧
      WroteAlong [] [(location, text)] tree after := by
  obtain ⟨location, hlocate, hwrote⟩ := write_wrote hwrite
  exact ⟨location, hlocate, hwrote,
    fun other hother => .inl ((look_eq_directory_iff_of_write hwrite other).mp hother)⟩

section Disk

variable {σ : Type} {treeOf : σ → FileTree} {α β : Type} {path : Path}

/-- A computation that makes directories on the way to a path and changes
nothing else in the tree of its disk, whether it succeeds or not. -/
def MakesAlong (treeOf : σ → FileTree) (path : Path) (computation : StateM σ α) : Prop :=
  ∀ state, WroteAlong [path] [] (treeOf state) (treeOf (computation.run state).2)

namespace MakesAlong

theorem pure (treeOf : σ → FileTree) (path : Path) (value : α) :
    MakesAlong treeOf path (Pure.pure value) :=
  fun state => (WroteAlong.refl (treeOf state)).mono (by simp)

theorem bind {computation : StateM σ α} {next : α → StateM σ β}
    (hcomputation : MakesAlong treeOf path computation)
    (hnext : ∀ value, MakesAlong treeOf path (next value)) :
    MakesAlong treeOf path (computation >>= next) := fun state =>
  ((hcomputation state).trans (hnext _ (computation.run state).2)).mono fun other hother =>
    ⟨path, List.mem_singleton_self path, by
      obtain rfl : other = path := by simpa using hother
      exact .refl⟩

theorem of_front {front : Path} {computation : StateM σ α}
    (hcomputation : MakesAlong treeOf front computation) (hfront : front.IsFront path) :
    MakesAlong treeOf path computation := fun state =>
  (hcomputation state).mono fun _ hother =>
    ⟨path, List.mem_singleton_self path, List.mem_singleton.mp hother ▸ hfront⟩

variable [Disk (StateM σ)] (hholds : Disk.HoldsTree treeOf)

include hholds

theorem makeDirectory (path : Path) : MakesAlong treeOf path
    (Disk.makeDirectory path : StateM σ (Except DiskFault Unit)) := by
  intro state
  have hmake := hholds.makeDirectory path state
  generalize (Disk.makeDirectory path : StateM σ (Except DiskFault Unit)).run state = made at *
  obtain ⟨result, after⟩ := made
  cases result with
  | ok _ => exact makeDirectory_wroteAlong hmake
  | error fault =>
      rw [show treeOf after = treeOf state from hmake]
      exact pure treeOf path () state

theorem isDirectory (path asked : Path) :
    MakesAlong treeOf path (Disk.isDirectory asked : StateM σ Bool) := by
  intro state
  rw [hholds.isDirectory]
  exact pure treeOf path () state

theorem makeDirectoriesFrom (fuel : Nat) (path : Path) : MakesAlong treeOf path
    (Disk.makeDirectoriesFrom fuel path : StateM σ (Except DiskFault Unit)) := by
  induction fuel generalizing path with
  | zero => exact pure treeOf path _
  | succ fuel ih =>
      -- The directory above is made with less fuel, and then this one is tried again.
      unfold Disk.makeDirectoriesFrom
      have hcheck : ∀ fault : DiskFault, MakesAlong treeOf path (do
          if ← Disk.isDirectory path then return .ok ()
          else return .error fault : StateM σ (Except DiskFault Unit)) := by
        intro fault
        refine (isDirectory hholds path path).bind fun found => ?_
        cases found <;> exact pure treeOf path _
      split
      · exact pure treeOf path _
      · refine (makeDirectory hholds path).bind fun made => ?_
        split
        · exact pure treeOf path _
        · split
          · exact pure treeOf path _
          next parent hparent =>
            refine ((ih parent).of_front (.single hparent)).bind fun above => ?_
            split
            · exact pure treeOf path _
            · refine (makeDirectory hholds path).bind fun again => ?_
              split
              · exact pure treeOf path _
              · exact hcheck _
        · exact hcheck _

theorem makeDirectories (path : Path) : MakesAlong treeOf path
    (Disk.makeDirectories path : StateM σ (Except DiskFault Unit)) :=
  makeDirectoriesFrom hholds _ path

end MakesAlong

end Disk

end FileTree

end TrackingPlan
