import Mathlib.Data.Set.Function
import TrackingPlan.Proofs.Command.Preparation
import TrackingPlan.Proofs.Layout.Modules
import TrackingPlan.Proofs.Path.Climbing

/-!
# Where modules are written

A module is written where its path leads from the output directory. Paths of
modules that are not of a screen lead to one file each in that directory. The
name of a screen is a part of the path as it is, so it may lead elsewhere, also
out of the output directory or to another module.
-/

namespace TrackingPlan.Command

/-- The way to a module from the output directory. -/
def moduleWay (path : List String) : Path.Way := .ofNames (Path.names ⟨modulePath path⟩)

/-- The way to the module of a screen with the name. -/
def screenWay (name : String) : Path.Way := moduleWay ["screens", name]

/-- Files are written below the output directory, each to a place of its own. -/
structure Contained (workingDirectory : List String) (output : Path)
    (files : List GeneratedFile) : Prop where
  below : ∀ file ∈ files, Path.IsBelow (output.location workingDirectory)
    ((writtenPath output file).location workingDirectory)
  apart : files.Pairwise fun file other =>
    (writtenPath output file).location workingDirectory ≠
      (writtenPath output other).location workingDirectory

/-- No name of a screen climbs out of the output directory or leads to another module. -/
structure NamesApart (plan : Plan) : Prop where
  inside : ∀ screen ∈ plan.screens, (screenWay screen.event.exportName).up = 0
  root : ∀ screen ∈ plan.screens, ∀ name ∈ rootModules,
    (screenWay screen.event.exportName).down ≠ [name ++ ".ts"]
  screens : ∀ screen ∈ plan.screens, ∀ other ∈ plan.screens,
    screen.event.exportName ≠ other.event.exportName →
      (screenWay screen.event.exportName).down ≠ (screenWay other.event.exportName).down

/-- The paths of the modules of a plan: one for each part, and one for each name of screens. -/
def modulePaths (plan : Plan) : Set (List String) :=
  {path | (∃ name ∈ rootModules, path = [name]) ∨
    ∃ screen ∈ plan.screens, path = ["screens", screen.event.exportName]}

theorem moduleWay_root {name : String} (hname : name ∈ rootModules) :
    moduleWay [name] = ⟨0, [name ++ ".ts"]⟩ := by
  have hmodules : ∀ name ∈ rootModules, moduleWay [name] = ⟨0, [name ++ ".ts"]⟩ := by
    decide
  exact hmodules name hname

theorem down_moduleWay_root {name : String} (hname : name ∈ rootModules) :
    (moduleWay [name]).down = [name ++ ".ts"] := by rw [moduleWay_root hname]

theorem isAbsolute_modulePath_root {name : String} (hname : name ∈ rootModules) :
    (⟨modulePath [name]⟩ : Path).isAbsolute = false := by
  have hmodules : ∀ name ∈ rootModules, (⟨modulePath [name]⟩ : Path).isAbsolute = false := by
    decide
  exact hmodules name hname

theorem isAbsolute_modulePath_screen (name : String) :
    (⟨modulePath ["screens", name]⟩ : Path).isAbsolute = false := by
  simp [Path.isAbsolute, modulePath_screen]

/-- A module is where its way leads from the output directory. -/
theorem location_join_modulePath {path : List String}
    (hpath : (⟨modulePath path⟩ : Path).isAbsolute = false) (workingDirectory : List String)
    (output : Path) : (output.join ⟨modulePath path⟩).location workingDirectory =
      (moduleWay path).follow (output.location workingDirectory) := by
  rw [Path.location_join hpath, Path.follow_eq]
  rfl

theorem names_modulePath_screen (name : String) :
    Path.names ⟨modulePath ["screens", name]⟩ = "screens" :: Path.names ⟨name ++ ".ts"⟩ := by
  have hscreens : Path.names ⟨"screens"⟩ = ["screens"] := rfl
  rw [modulePath_screen, Path.names_append_slash, hscreens, List.singleton_append]

theorem append_extension_ne {name short : String} (hshort : short.toList.length ≤ 2) :
    name ++ ".ts" ≠ short := by
  rintro rfl
  simp at hshort

/-- A module of a screen has a name of its own, in some directory. -/
theorem exists_down_screenWay (name : String) :
    ∃ before last, (screenWay name).down = before ++ [last ++ ".ts"] := by
  obtain ⟨before, last, hnames⟩ := Path.exists_names_append name ".ts" (by decide) (by decide)
  have hlast : last ++ ".ts" ≠ ".." := append_extension_ne (by decide)
  obtain ⟨front, hdown⟩ := Path.Way.down_ofNames_concat ("screens" :: before) hlast
  refine ⟨front, last, ?_⟩
  rw [← hdown, screenWay, moduleWay, names_modulePath_screen, hnames, List.cons_append]

theorem screenWay_of_no_slash {name : String} (hslash : '/' ∉ name.toList) :
    screenWay name = ⟨0, ["screens", name ++ ".ts"]⟩ := by
  have hname : Path.names ⟨name ++ ".ts"⟩ = [name ++ ".ts"] :=
    Path.names_of_segment (append_extension_ne (by decide)) (append_extension_ne (by decide))
      (by simpa using hslash)
  have habove : ".." ≠ name ++ ".ts" := (append_extension_ne (by decide)).symm
  rw [screenWay, moduleWay, names_modulePath_screen, hname]
  refine Path.Way.ofNames_of_not_mem ?_
  simpa using habove

/-- Names without slashes are apart. -/
theorem namesApart_of_no_slash {plan : Plan}
    (hslash : ∀ screen ∈ plan.screens, '/' ∉ screen.event.exportName.toList) :
    NamesApart plan := by
  refine ⟨fun screen hscreen => ?_, fun screen hscreen name _ => ?_,
    fun screen hscreen other hother hne => ?_⟩
  · rw [screenWay_of_no_slash (hslash screen hscreen)]
  · rw [screenWay_of_no_slash (hslash screen hscreen)]
    simp
  · rw [screenWay_of_no_slash (hslash screen hscreen), screenWay_of_no_slash (hslash other hother)]
    simpa using hne

theorem mem_paths_modules_iff {options : LayoutOptions} {plan : Plan} {path : List String} :
    path ∈ (plan.modules options).map (·.path) ↔ path ∈ modulePaths plan := by
  simp only [modulePaths, Plan.modules, rootModules, List.map_append, List.map_map, List.map_cons,
    List.map_nil, Function.comp_def, List.mem_append, List.mem_cons, List.not_mem_nil,
    List.mem_map, List.mem_eraseDups, or_false, exists_eq_or_imp, exists_eq_left, Set.mem_ofPred_eq]
  constructor
  · rintro ((hshared | ⟨name, ⟨screen, hscreen, rfl⟩, rfl⟩) | htracks | htraits)
    · exact .inl (.inl hshared)
    · exact .inr ⟨screen, hscreen, rfl⟩
    · exact .inl (.inr (.inl htracks))
    · exact .inl (.inr (.inr htraits))
  · rintro ((hshared | htracks | htraits) | ⟨screen, hscreen, rfl⟩)
    · exact .inl (.inl hshared)
    · exact .inr (.inl htracks)
    · exact .inr (.inr htraits)
    · exact .inl (.inr ⟨_, ⟨screen, hscreen, rfl⟩, rfl⟩)

theorem isAbsolute_modulePath {plan : Plan} {path : List String} (hpath : path ∈ modulePaths plan) :
    (⟨modulePath path⟩ : Path).isAbsolute = false := by
  rcases hpath with ⟨name, hname, rfl⟩ | ⟨screen, -, rfl⟩
  · exact isAbsolute_modulePath_root hname
  · exact isAbsolute_modulePath_screen _

/-- The way to a module leads to a file with a name. -/
theorem down_moduleWay_ne_nil {plan : Plan} {path : List String} (hpath : path ∈ modulePaths plan) :
    (moduleWay path).down ≠ [] := by
  rcases hpath with ⟨name, hname, rfl⟩ | ⟨screen, -, rfl⟩
  · rw [down_moduleWay_root hname]
    exact List.cons_ne_nil _ _
  · obtain ⟨before, last, hdown⟩ := exists_down_screenWay screen.event.exportName
    rw [← screenWay, hdown]
    exact List.append_ne_nil_of_right_ne_nil _ (List.cons_ne_nil _ _)

/-- Names are apart when no way to a module climbs and no two lead down to the same place. -/
theorem namesApart_iff (plan : Plan) : NamesApart plan ↔
    (∀ path ∈ modulePaths plan, (moduleWay path).up = 0) ∧
      Set.InjOn (fun path => (moduleWay path).down) (modulePaths plan) := by
  constructor
  · rintro ⟨hinside, hroot, hscreens⟩
    refine ⟨?_, ?_⟩
    · rintro path (⟨name, hname, rfl⟩ | ⟨screen, hscreen, rfl⟩)
      · rw [moduleWay_root hname]
      · exact hinside screen hscreen
    · rintro first (⟨name, hname, rfl⟩ | ⟨screen, hscreen, rfl⟩) second
        (⟨other, hother, rfl⟩ | ⟨other, hother, rfl⟩) hdown
      · simpa [moduleWay_root hname, moduleWay_root hother] using hdown
      · exact absurd (hdown.symm.trans (down_moduleWay_root hname)) (hroot other hother name hname)
      · exact absurd (hdown.trans (down_moduleWay_root hother)) (hroot screen hscreen other hother)
      · by_contra hne
        refine hscreens screen hscreen other hother (fun heq => hne ?_) hdown
        rw [heq]
  · rintro ⟨hinside, hapart⟩
    have hmem : ∀ screen ∈ plan.screens,
        ["screens", screen.event.exportName] ∈ modulePaths plan :=
      fun screen hscreen => .inr ⟨screen, hscreen, rfl⟩
    refine ⟨fun screen hscreen => hinside _ (hmem screen hscreen),
      fun screen hscreen name hname hdown => ?_, fun screen hscreen other hother hne hdown => ?_⟩
    · cases hapart (hmem screen hscreen) (.inl ⟨name, hname, rfl⟩)
        (hdown.trans (down_moduleWay_root hname).symm)
    · have hpath := hapart (hmem screen hscreen) (hmem other hother) hdown
      exact hne (by simpa using hpath)

theorem contained_iff_locations {workingDirectory : List String} {output : Path}
    {files : List GeneratedFile} : Contained workingDirectory output files ↔
      (∀ location ∈ files.map fun file => (writtenPath output file).location workingDirectory,
        Path.IsBelow (output.location workingDirectory) location) ∧
      (files.map fun file => (writtenPath output file).location workingDirectory).Nodup := by
  rw [List.forall_mem_map, List.Nodup, List.pairwise_map]
  exact ⟨fun ⟨below, apart⟩ => ⟨below, apart⟩, fun ⟨below, apart⟩ => ⟨below, apart⟩⟩

section Rendered

variable {options : LayoutOptions} {plan : Plan} {tree : FileTree} {output : Path}
  {files : List GeneratedFile}

/-- Each file is written where the way to its module leads from the output directory. -/
theorem locations_rendered
    (hfiles : (plan.modules options).mapM (renderedOn tree output) = .ok files)
    (workingDirectory : List String) :
    files.map (fun file => (writtenPath output file).location workingDirectory) =
      ((plan.modules options).map (·.path)).map fun path =>
        (moduleWay path).follow (output.location workingDirectory) := by
  rw [List.map_map]
  refine map_eq_of_mem_mapM hfiles fun group hgroup file hfile => ?_
  obtain ⟨onDisk, -, rfl⟩ := renderedOn_eq_ok_iff.mp hfile
  have hpath := mem_paths_modules_iff.mp (List.mem_map_of_mem hgroup)
  exact location_join_modulePath (isAbsolute_modulePath hpath) workingDirectory output

/-- Whether files are contained, by the ways to their modules. -/
theorem contained_iff
    (hfiles : (plan.modules options).mapM (renderedOn tree output) = .ok files)
    (workingDirectory : List String) :
    Contained workingDirectory output files ↔
      (∀ path ∈ modulePaths plan, Path.IsBelow (output.location workingDirectory)
        ((moduleWay path).follow (output.location workingDirectory))) ∧
      Set.InjOn (fun path => (moduleWay path).follow (output.location workingDirectory))
        (modulePaths plan) := by
  have hnodup : ((plan.modules options).map (·.path)).Nodup := by
    rw [← Plan.mergeGroups_groups]
    exact nodup_paths_mergeGroups _
  rw [contained_iff_locations, locations_rendered hfiles, List.forall_mem_map,
    List.nodup_map_iff_inj_on hnodup]
  simp only [mem_paths_modules_iff]
  exact Iff.rfl

/-- Below the output directory, and nowhere twice, whatever the directory is. -/
theorem contained_of_namesApart (hapart : NamesApart plan)
    (hfiles : (plan.modules options).mapM (renderedOn tree output) = .ok files)
    (workingDirectory : List String) : Contained workingDirectory output files := by
  obtain ⟨hinside, hinjective⟩ := (namesApart_iff plan).mp hapart
  have hfollow : ∀ path ∈ modulePaths plan,
      (moduleWay path).follow (output.location workingDirectory) =
        output.location workingDirectory ++ (moduleWay path).down :=
    fun path hpath => Path.Way.follow_of_up_eq_zero (hinside path hpath) _
  refine (contained_iff hfiles workingDirectory).mpr ⟨fun path hpath => ?_, ?_⟩
  · exact ⟨_, down_moduleWay_ne_nil hpath, hfollow path hpath⟩
  · intro first hfirst second hsecond heq
    dsimp only at heq
    rw [hfollow first hfirst, hfollow second hsecond] at heq
    exact hinjective hfirst hsecond (List.append_cancel_left heq)

end Rendered

theorem existingOn_empty (workingDirectory : List String) (path : Path) :
    existingOn (.empty workingDirectory) path = .ok none := by
  rw [existingOn, if_neg (FileTree.not_isFile_empty workingDirectory path)]

/-- A module as a file that is not there yet. -/
def newFile (group : ModuleGroup) : GeneratedFile :=
  ⟨modulePath group.path, TypeScript.moduleText group.items, none⟩

theorem renderedOn_empty (workingDirectory : List String) (output : Path)
    (groups : List ModuleGroup) :
    groups.mapM (renderedOn (.empty workingDirectory) output) = .ok (groups.map newFile) :=
  mapM_eq_ok_map fun _ _ => renderedOn_eq_ok_iff.mpr ⟨none, existingOn_empty _ _, rfl⟩

theorem renderFiles_empty (workingDirectory : List String) (output : Path)
    (groups : List ModuleGroup) :
    (renderFiles (m := StateM FileTree) output groups).run.run (.empty workingDirectory) =
      (.ok (groups.map newFile), .empty workingDirectory) := by
  rw [reads_renderFiles FileTree.holdsTree]
  exact congrArg (·, _) (renderedOn_empty workingDirectory output groups)

/-- Names are apart when files are contained in two output directories next to each other. -/
theorem namesApart_of_contained {options : LayoutOptions} {plan : Plan}
    {workingDirectory : List String}
    (hcontained : ∀ output, Contained workingDirectory output
      ((plan.modules options).map newFile)) : NamesApart plan := by
  have hfirst : Path.location workingDirectory ⟨"/a"⟩ = ["a"] :=
    (Path.location_of_isAbsolute rfl _).trans rfl
  have hsecond : Path.location workingDirectory ⟨"/b"⟩ = ["b"] :=
    (Path.location_of_isAbsolute rfl _).trans rfl
  obtain ⟨hbelow, hapart⟩ := (contained_iff (renderedOn_empty workingDirectory ⟨"/a"⟩ _) _).mp
    (hcontained ⟨"/a"⟩)
  obtain ⟨hbelowOther, -⟩ := (contained_iff (renderedOn_empty workingDirectory ⟨"/b"⟩ _) _).mp
    (hcontained ⟨"/b"⟩)
  rw [hfirst] at hbelow hapart
  rw [hsecond] at hbelowOther
  have hinside : ∀ path ∈ modulePaths plan, (moduleWay path).up = 0 := fun path hpath =>
    Path.Way.up_eq_zero_of_isBelow (by decide) (hbelow path hpath) (hbelowOther path hpath)
  refine (namesApart_iff plan).mpr ⟨hinside, fun first hfirst second hsecond hdown => ?_⟩
  refine hapart hfirst hsecond ?_
  dsimp only at hdown ⊢
  rw [Path.Way.follow_of_up_eq_zero (hinside first hfirst),
    Path.Way.follow_of_up_eq_zero (hinside second hsecond), hdown]

/-- The modules of a plan are written below the output directory, each to a file
of its own, whatever the tree and the directory are, if the names of screens are
apart. If they are not, there is an output directory where a run in a tree without
files writes all modules and does not contain them. Names are apart in particular
when no name of a screen has a slash. -/
theorem renderFiles_contained (options : LayoutOptions) (plan : Plan) : ∃ groups,
    plan.toGroups options = .ok groups ∧
    (NamesApart plan → ∀ (tree after : FileTree) (output : Path) (files : List GeneratedFile),
      (renderFiles (m := StateM FileTree) output (mergeGroups groups)).run.run tree =
        (.ok files, after) → Contained tree.workingDirectory output files) ∧
    (¬ NamesApart plan → ∀ workingDirectory, ∃ (output : Path) (files : List GeneratedFile),
      (renderFiles (m := StateM FileTree) output (mergeGroups groups)).run.run
        (.empty workingDirectory) = (.ok files, .empty workingDirectory) ∧
      (∀ file ∈ files, file.isStale = true) ∧ ¬ Contained workingDirectory output files) ∧
    ((∀ screen ∈ plan.screens, '/' ∉ screen.event.exportName.toList) → NamesApart plan) := by
  refine ⟨_, plan.toGroups_eq options, ?_, ?_, namesApart_of_no_slash⟩
  · intro hapart tree after output files hrun
    rw [reads_renderFiles FileTree.holdsTree, Plan.mergeGroups_groups] at hrun
    obtain ⟨hfiles, -⟩ := Prod.mk.inj hrun
    exact contained_of_namesApart hapart hfiles _
  · intro hapart workingDirectory
    have hsome : ¬ ∀ output, Contained workingDirectory output
        ((plan.modules options).map newFile) := fun hcontained =>
      hapart (namesApart_of_contained hcontained)
    obtain ⟨output, hcontained⟩ := not_forall.mp hsome
    refine ⟨output, (plan.modules options).map newFile, ?_, ?_, hcontained⟩
    · rw [Plan.mergeGroups_groups, renderFiles_empty]
    · rw [List.forall_mem_map]
      exact fun group _ => rfl

theorem homes_renderFiles_contained : ∃ groups files,
    Plan.ofDefinition .standard Plan.homesOfOneName = .ok Plan.homesOfOneNamePlan ∧
    Plan.homesOfOneNamePlan.toGroups ⟨none, true⟩ = .ok groups ∧
    (renderFiles (m := StateM FileTree) ⟨"o"⟩ (mergeGroups groups)).run.run (.empty ["work"]) =
      (.ok files, .empty ["work"]) ∧
    files.map (·.path) = ["shared-definitions.ts", "screens/myhome.ts", "screens/start.ts",
      "tracks.ts", "shared-traits.ts"] ∧
    Contained ["work"] ⟨"o"⟩ files := by
  have hplan : Plan.ofDefinition .standard Plan.homesOfOneName = .ok Plan.homesOfOneNamePlan := by
    cbv
  obtain ⟨groups, hgroups, hcontained, -, hslash⟩ :=
    renderFiles_contained ⟨none, true⟩ Plan.homesOfOneNamePlan
  have hrun := renderFiles_empty ["work"] ⟨"o"⟩ (mergeGroups groups)
  obtain rfl := Except.ok.inj ((Plan.toGroups_eq _ _).symm.trans hgroups)
  refine ⟨_, _, hplan, rfl, hrun, ?_, hcontained (hslash (by decide +kernel)) _ _ _ _ hrun⟩
  rw [Plan.mergeGroups_groups]
  decide +kernel

/-- A screen that is out of the output directory, and one in the place of all tracks. -/
def awayScreens : PlanDefinition where
  tracks := .empty
  screens := ⟨[("../../evil", none), ("../tracks", none)], by decide⟩
  definitions := .empty
  traits := .empty

def awayPlan : Plan := (Plan.ofDefinition .standard awayScreens).toOption.getD .empty

/-- Two modules are written to one file, and one is written next to the output directory. -/
theorem away_not_contained : ∃ groups files,
    Plan.ofDefinition .standard awayScreens = .ok awayPlan ∧
    awayPlan.toGroups ⟨none, true⟩ = .ok groups ∧
    (renderFiles (m := StateM FileTree) ⟨"o"⟩ (mergeGroups groups)).run.run (.empty ["work"]) =
      (.ok files, .empty ["work"]) ∧
    files.map (fun file => (file.path, (writtenPath ⟨"o"⟩ file).location ["work"])) =
      [("shared-definitions.ts", ["work", "o", "shared-definitions.ts"]),
        ("screens/../../evil.ts", ["work", "evil.ts"]),
        ("screens/../tracks.ts", ["work", "o", "tracks.ts"]),
        ("tracks.ts", ["work", "o", "tracks.ts"]),
        ("shared-traits.ts", ["work", "o", "shared-traits.ts"])] ∧
    ((writeFiles (m := StateM FileTree) ⟨"o"⟩ files).run.run
      (.empty ["work"])).2.listing.map (·.1) = ["o/", "o/shared-definitions.ts", "o/screens/",
        "o/tracks.ts", "o/shared-traits.ts", "evil.ts"] ∧
    ¬ Contained ["work"] ⟨"o"⟩ files := by
  have hplan : Plan.ofDefinition .standard awayScreens = .ok awayPlan := rfl
  refine ⟨_, _, hplan, Plan.toGroups_eq _ _, renderFiles_empty _ _ _, ?_, ?_, ?_⟩
  all_goals rw [Plan.mergeGroups_groups]
  · decide +kernel
  · decide +kernel
  · rintro ⟨-, hapart⟩
    rw [← List.pairwise_map] at hapart
    exact absurd hapart (by decide +kernel)

end TrackingPlan.Command
