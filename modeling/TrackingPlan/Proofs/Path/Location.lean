import Mathlib.Data.List.Induction
import TrackingPlan.Proofs.Path.Names

/-!
# Where paths lead

A path leads from the working directory to a location. The shortest way from
one location to another goes up to what they share and down from there, and
written as a text it is still the same way.
-/

namespace TrackingPlan

namespace Path

/-- A name that is a step down. -/
structure IsStepDown (name : String) : Prop where
  ne_empty : name ≠ ""
  ne_here : name ≠ "."
  ne_above : name ≠ ".."
  no_slash : '/' ∉ name.toList

/-- Where the path leads; the empty path leads nowhere else. -/
def location (workingDirectory : List String) (path : Path) : List String :=
  follow (if path.isAbsolute then [] else workingDirectory) path.names

theorem resolve?_eq_some {path : Path} (htext : path.text ≠ "") (workingDirectory : List String) :
    path.resolve? workingDirectory = some (path.location workingDirectory) := by
  rw [resolve?, if_neg htext]
  rfl

theorem eq_location_of_resolve? {path : Path} {workingDirectory location : List String}
    (hresolve : path.resolve? workingDirectory = some location) :
    location = path.location workingDirectory := by
  by_cases htext : path.text = ""
  · rw [resolve?, if_pos htext] at hresolve
    cases hresolve
  · rw [resolve?_eq_some htext] at hresolve
    exact (Option.some.inj hresolve).symm

theorem location_of_isAbsolute {path : Path} (hpath : path.isAbsolute = true)
    (workingDirectory : List String) : path.location workingDirectory = follow [] path.names := by
  rw [location, if_pos hpath]

theorem location_join {base path : Path} (hpath : path.isAbsolute = false)
    (workingDirectory : List String) :
    (base.join path).location workingDirectory =
      follow (base.location workingDirectory) path.names := by
  rw [location, names_join, isAbsolute_join, hpath, location, Bool.false_or]
  exact follow_append _ _ _

theorem of_mem_names {path : Path} {name : String} (hname : name ∈ path.names) :
    name ≠ "" ∧ name ≠ "." ∧ '/' ∉ name.toList := by
  obtain ⟨hsegment, hkept⟩ := List.mem_filter.mp hname
  obtain ⟨part, hpart, rfl⟩ := List.mem_map.mp hsegment
  obtain ⟨hempty, hdot⟩ := Bool.and_eq_true_iff.mp hkept
  refine ⟨bne_iff_ne.mp hempty, bne_iff_ne.mp hdot, ?_⟩
  rw [String.toList_ofList]
  exact Text.not_mem_of_mem_splitOn hpart

/-- Whatever names are followed, the location has none that leads upwards. -/
theorem isStepDown_of_mem_follow {directory names : List String}
    (hdirectory : ∀ name ∈ directory, IsStepDown name)
    (hnames : ∀ name ∈ names, name ≠ "" ∧ name ≠ "." ∧ '/' ∉ name.toList) :
    ∀ name ∈ follow directory names, IsStepDown name := by
  induction names generalizing directory with
  | nil => exact hdirectory
  | cons first rest ih =>
      rw [List.forall_mem_cons] at hnames
      obtain ⟨⟨hempty, hdot, hslash⟩, hrest⟩ := hnames
      have hstep : ∀ name ∈ if first = ".." then directory.dropLast else directory ++ [first],
          IsStepDown name := by
        split
        · exact fun name hname => hdirectory name ((List.dropLast_sublist _).subset hname)
        next habove =>
          intro name hname
          rcases List.mem_append.mp hname with hname | hname
          · exact hdirectory name hname
          · rw [List.mem_singleton.mp hname]
            exact ⟨hempty, hdot, habove, hslash⟩
      exact ih hstep hrest

theorem isStepDown_of_mem_location {workingDirectory : List String}
    (hdirectory : ∀ name ∈ workingDirectory, IsStepDown name) (path : Path) :
    ∀ name ∈ path.location workingDirectory, IsStepDown name := by
  refine isStepDown_of_mem_follow ?_ fun _ => of_mem_names
  split
  · simp
  · exact hdirectory

theorem exists_relative_eq (source target : List String) :
    ∃ shared above below, source = shared ++ above ∧ target = shared ++ below ∧
      relative source target = above.map (fun _ => "..") ++ below := by
  induction source generalizing target with
  | nil => exact ⟨[], [], target, rfl, rfl, by cases target <;> rfl⟩
  | cons first rest ih =>
      cases target with
      | nil => exact ⟨[], first :: rest, [], rfl, rfl, rfl⟩
      | cons other others =>
          by_cases hfirst : first = other
          · subst hfirst
            obtain ⟨shared, above, below, hsource, htarget, hrelative⟩ := ih others
            refine ⟨first :: shared, above, below, by rw [hsource]; rfl, by rw [htarget]; rfl, ?_⟩
            rw [relative, if_pos rfl, hrelative]
          · exact ⟨[], first :: rest, other :: others, rfl, rfl, by rw [relative, if_neg hfirst]⟩

theorem follow_above (shared above : List String) :
    follow (shared ++ above) (above.map fun _ => "..") = shared := by
  induction above using List.reverseRecOn with
  | nil => exact List.append_nil shared
  | append_singleton above name ih =>
      have hsteps : (above ++ [name]).map (fun _ => "..") = ".." :: above.map fun _ => ".." := by
        rw [List.map_const', List.map_const', List.length_append, List.length_singleton,
          List.replicate_succ]
      -- The first step up leaves the last name of the way down.
      have hlast : (shared ++ (above ++ [name])).dropLast = shared ++ above := by
        rw [← List.append_assoc, List.dropLast_concat]
      rw [hsteps]
      refine Eq.trans ?_ ih
      rw [← hlast]
      rfl

theorem follow_below (directory : List String) {names : List String} (hnames : ".." ∉ names) :
    follow directory names = directory ++ names := by
  induction names generalizing directory with
  | nil => exact (List.append_nil directory).symm
  | cons name rest ih =>
      rw [List.mem_cons, not_or] at hnames
      obtain ⟨hname, hrest⟩ := hnames
      have hstep : follow directory (name :: rest) = follow (directory ++ [name]) rest := by
        simp [follow, Ne.symm hname]
      rw [hstep, ih _ hrest, List.append_assoc, List.singleton_append]

/-- The way from a location to another leads there. -/
theorem follow_relative (source : List String) {target : List String} (htarget : ".." ∉ target) :
    follow source (relative source target) = target := by
  obtain ⟨shared, above, below, rfl, rfl, hrelative⟩ := exists_relative_eq source target
  rw [hrelative, follow_append, follow_above]
  exact follow_below shared fun hmem => htarget (List.mem_append_right _ hmem)

/-- A way stays the same as a text. -/
theorem names_textJoin {names : List String}
    (hnames : ∀ name ∈ names, name ≠ "" ∧ name ≠ "." ∧ '/' ∉ name.toList) :
    Path.names ⟨Text.join "/" names⟩ = names := by
  induction names with
  | nil => rfl
  | cons first rest ih =>
      rw [List.forall_mem_cons] at hnames
      obtain ⟨⟨hempty, hdot, hslash⟩, hrest⟩ := hnames
      have hfirst := names_of_segment hempty hdot hslash
      cases rest with
      | nil => exact hfirst
      | cons next others =>
          rw [Text.join, names_append_slash, hfirst, ih hrest, List.singleton_append]

theorem names_join_relative (source : List String) {target : List String}
    (htarget : ∀ name ∈ target, IsStepDown name) :
    names ⟨Text.join "/" (relative source target)⟩ = relative source target := by
  apply names_textJoin
  obtain ⟨shared, above, below, -, rfl, hrelative⟩ := exists_relative_eq source target
  rw [hrelative]
  intro name hname
  rcases List.mem_append.mp hname with hname | hname
  · obtain ⟨_, -, rfl⟩ := List.mem_map.mp hname
    decide
  · have hstep := htarget name (List.mem_append_right _ hname)
    exact ⟨hstep.ne_empty, hstep.ne_here, hstep.no_slash⟩

end Path

end TrackingPlan
