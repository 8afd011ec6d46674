import TrackingPlan.Proofs.Disk.Locating

/-!
# What writing leaves

Whatever is done to a tree leaves its directories, and afterwards a file has
the text that was written last at its location, or else what it had before.
Where a path has led to a location, it leads there for ever.
-/

namespace TrackingPlan

namespace FileTree

/-- The text that comes last in the log for a location. -/
def lastWritten (log : List (List String × String)) (location : List String) : Option String :=
  log.reverse.lookup location

theorem lastWritten_append (first second : List (List String × String)) (location : List String) :
    lastWritten (first ++ second) location =
      (lastWritten second location).or (lastWritten first location) := by
  rw [lastWritten, List.reverse_append, List.lookup_append]
  rfl

theorem lastWritten_eq_none_iff {log : List (List String × String)} {location : List String} :
    lastWritten log location = none ↔ ∀ written ∈ log, written.1 ≠ location := by
  rw [lastWritten, List.lookup_eq_none_iff]
  simp only [List.mem_reverse, bne_iff_ne, ne_comm]

theorem lastWritten_eq_some {log : List (List String × String)} {location : List String}
    {text : String} (hmem : (location, text) ∈ log)
    (hsame : ∀ written ∈ log, written.1 = location → written.2 = text) :
    lastWritten log location = some text := by
  cases hlast : lastWritten log location with
  | none => exact absurd rfl (lastWritten_eq_none_iff.mp hlast _ hmem)
  | some other =>
      obtain ⟨later, earlier, hlog, -⟩ := List.lookup_eq_some_iff.mp hlast
      have hother : (location, other) ∈ log := by
        rw [← List.mem_reverse, hlog]
        simp
      rw [← hsame _ hother rfl]

/-- From one tree to another by writing texts at locations, besides new directories. -/
structure Wrote (log : List (List String × String)) (before after : FileTree) : Prop where
  workingDirectory_eq : after.workingDirectory = before.workingDirectory
  directory_stays : ∀ location, before.look location = .directory →
    after.look location = .directory
  contents_eq : ∀ location, (after.look location).contents? =
    ((lastWritten log location).map Contents.text).or (before.look location).contents?

namespace Wrote

variable {log : List (List String × String)} {before after : FileTree}

theorem refl (tree : FileTree) : Wrote [] tree tree :=
  ⟨rfl, fun _ hlook => hlook, fun _ => rfl⟩

theorem trans {more : List (List String × String)} {last : FileTree}
    (hfirst : Wrote log before after) (hsecond : Wrote more after last) :
    Wrote (log ++ more) before last where
  workingDirectory_eq := hsecond.workingDirectory_eq.trans hfirst.workingDirectory_eq
  directory_stays := fun location hlook =>
    hsecond.directory_stays location (hfirst.directory_stays location hlook)
  contents_eq := fun location => by
    rw [hsecond.contents_eq, hfirst.contents_eq, lastWritten_append]
    cases lastWritten more location <;> rfl

end Wrote

section Locating

variable {before after : FileTree}
    (hstays : ∀ location, before.look location = .directory → after.look location = .directory)

include hstays

/-- Directories that stay are still followed. -/
theorem walk_eq_ok_of_directory_stays {location names found : List String}
    (hwalk : before.walk location names = .ok found) :
    after.walk location names = .ok found := by
  induction names generalizing location with
  | nil => exact hwalk
  | cons name rest ih =>
      obtain ⟨hlook, hsize, hrest⟩ := walk_cons_eq_ok_iff.mp hwalk
      exact walk_cons_eq_ok_iff.mpr ⟨hstays location hlook, hsize, ih hrest⟩

theorem locate_eq_ok_of_directory_stays
    (hdirectory : after.workingDirectory = before.workingDirectory) {path : Path}
    {location : List String} (hlocate : before.locate path = .ok location) :
    after.locate path = .ok location := by
  obtain ⟨husable, hwalk⟩ := locate_eq_ok_iff.mp hlocate
  refine locate_eq_ok_iff.mpr ⟨husable, ?_⟩
  rw [start, hdirectory]
  exact walk_eq_ok_of_directory_stays hstays hwalk

end Locating

theorem Wrote.locate_eq_ok {log : List (List String × String)} {before after : FileTree}
    (hwrote : Wrote log before after) {path : Path} {location : List String}
    (hlocate : before.locate path = .ok location) : after.locate path = .ok location :=
  locate_eq_ok_of_directory_stays hwrote.directory_stays hwrote.workingDirectory_eq hlocate

theorem look_eq_nothing_iff {tree : FileTree} {location : List String} :
    tree.look location = .nothing ↔ tree.get? location = none := by
  rw [look_eq_of_get? rfl]
  cases tree.get? location with
  | none => simp [Sight.ofEntry]
  | some entry => cases entry <;> simp [Sight.ofEntry]

theorem makeDirectory_eq_ok_iff {tree after : FileTree} {path : Path} :
    tree.makeDirectory path = .ok after ↔ ∃ location,
      tree.locate (trimSlashes path) = .ok location ∧ tree.look location = .nothing ∧
        tree.put location (.directory []) = after := by
  unfold makeDirectory
  cases hlocate : tree.locate (trimSlashes path) with
  | error fault => simp [bind, Except.bind]
  | ok location =>
      simp only [bind, Except.bind, Except.ok.injEq, exists_eq_left', look_eq_nothing_iff]
      cases hget : tree.get? location <;> simp

theorem write_eq_ok_iff {tree after : FileTree} {path : Path} {contents : Contents} :
    tree.write path contents = .ok after ↔ ∃ location,
      tree.locate path = .ok location ∧ tree.look location ≠ .directory ∧
        tree.put location (.file contents) = after := by
  unfold write
  cases hlocate : tree.locate path with
  | error fault => simp [bind, Except.bind]
  | ok location =>
      simp only [bind, Except.bind, Except.ok.injEq, exists_eq_left']
      cases hget : tree.get? location with
      | none => simp [look_eq_of_get? hget, Sight.ofEntry]
      | some entry => cases entry <;> simp [look_eq_of_get? hget, Sight.ofEntry]

/-- An entry with nothing below it is put to where there is no directory, and to nowhere else. -/
theorem look_put {tree : FileTree} {location : List String} {entry : Entry}
    (hparent : tree.look location.dropLast = .directory) (hlook : tree.look location ≠ .directory)
    (hbelow : ∀ more, more ≠ [] → entry.look more = .nothing) (other : List String) :
    (tree.put location entry).look other =
      if other = location then entry.look [] else tree.look other := by
  have hne : location ≠ [] := by
    rintro rfl
    exact hlook hparent
  by_cases hprefix : location <+: other
  · obtain ⟨more, rfl⟩ := hprefix
    have hput : (tree.put location entry).look (location ++ more) = entry.look more :=
      Entry.look_put_append entry hne hparent more
    rw [hput]
    cases more with
    | nil => rw [List.append_nil, if_pos rfl]
    | cons name rest =>
        -- What is below the location would make a directory of it.
        have hnothing : tree.look (location ++ name :: rest) = .nothing := by
          by_contra hsome
          exact hlook (Entry.look_of_look_append (List.cons_ne_nil name rest) hsome)
        rw [if_neg (by simp), hnothing, hbelow _ (List.cons_ne_nil name rest)]
  · have hother : other ≠ location := by
      rintro rfl
      exact hprefix List.prefix_rfl
    rw [if_neg hother]
    exact Entry.look_put_of_not_isPrefix entry hprefix

/-- A new directory is where the path leads, and all else is as it was. -/
theorem look_of_makeDirectory {tree after : FileTree} {path : Path}
    (hmake : tree.makeDirectory path = .ok after) :
    ∃ location, tree.locate (trimSlashes path) = .ok location ∧ tree.look location = .nothing ∧
      after.workingDirectory = tree.workingDirectory ∧
      ∀ other, after.look other = if other = location then .directory else tree.look other := by
  obtain ⟨location, hlocate, hlook, rfl⟩ := makeDirectory_eq_ok_iff.mp hmake
  have hbelow : ∀ more, more ≠ [] → (Entry.directory []).look more = .nothing := by
    intro more hmore
    obtain ⟨name, rest, rfl⟩ := List.exists_cons_of_ne_nil hmore
    rfl
  exact ⟨location, hlocate, hlook, rfl,
    look_put (look_dropLast_of_locate hlocate) (by simp [hlook]) hbelow⟩

/-- What is written is in the file that the path leads to, and all else is as it was. -/
theorem look_of_write {tree after : FileTree} {path : Path} {contents : Contents}
    (hwrite : tree.write path contents = .ok after) :
    ∃ location, tree.locate path = .ok location ∧ tree.look location ≠ .directory ∧
      after.workingDirectory = tree.workingDirectory ∧
      ∀ other, after.look other =
        if other = location then .file contents else tree.look other := by
  obtain ⟨location, hlocate, hlook, rfl⟩ := write_eq_ok_iff.mp hwrite
  have hbelow : ∀ more, more ≠ [] → (Entry.file contents).look more = .nothing := by
    intro more hmore
    obtain ⟨name, rest, rfl⟩ := List.exists_cons_of_ne_nil hmore
    rfl
  exact ⟨location, hlocate, hlook, rfl, look_put (look_dropLast_of_locate hlocate) hlook hbelow⟩

/-- Directories are where they were. -/
theorem look_eq_directory_iff_of_write {tree after : FileTree} {path : Path} {contents : Contents}
    (hwrite : tree.write path contents = .ok after) (location : List String) :
    after.look location = .directory ↔ tree.look location = .directory := by
  obtain ⟨written, -, hlook, -, hafter⟩ := look_of_write hwrite
  rw [hafter]
  by_cases hsame : location = written
  · rw [if_pos hsame, hsame]
    exact iff_of_false nofun hlook
  · rw [if_neg hsame]

/-- A new directory does not change any file. -/
theorem makeDirectory_wrote {tree after : FileTree} {path : Path}
    (hmake : tree.makeDirectory path = .ok after) : Wrote [] tree after := by
  obtain ⟨location, -, hlook, hdirectory, hafter⟩ := look_of_makeDirectory hmake
  refine ⟨hdirectory, fun other hother => ?_, fun other => ?_⟩
  · rw [hafter, hother, ite_self]
  · rw [hafter]
    by_cases hother : other = location
    · rw [if_pos hother, hother, hlook]
      rfl
    · rw [if_neg hother]
      rfl

/-- A written text is in the file that the path leads to. -/
theorem write_wrote {tree after : FileTree} {path : Path} {text : String}
    (hwrite : tree.write path (.text text) = .ok after) :
    ∃ location, tree.locate path = .ok location ∧ Wrote [(location, text)] tree after := by
  obtain ⟨location, hlocate, -, hdirectory, hafter⟩ := look_of_write hwrite
  refine ⟨location, hlocate, hdirectory,
    fun other => (look_eq_directory_iff_of_write hwrite other).mpr, fun other => ?_⟩
  rw [hafter]
  by_cases hother : other = location
  · subst hother
    rw [if_pos rfl]
    simp [lastWritten, Sight.contents?]
  · have hunwritten : lastWritten [(location, text)] other = none := by
      rw [lastWritten_eq_none_iff]
      simpa using Ne.symm hother
    rw [if_neg hother, hunwritten]
    rfl

theorem run_attempt (change : FileTree → Except DiskFault FileTree) (tree : FileTree) :
    (attempt change).run tree = match change tree with
      | .ok after => (.ok (), after)
      | .error fault => (.error fault, tree) := by
  unfold attempt
  cases hchange : change tree <;> simp [hchange] <;> rfl

end FileTree

end TrackingPlan
