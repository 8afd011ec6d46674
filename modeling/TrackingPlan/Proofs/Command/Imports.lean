import TrackingPlan.Proofs.Command.Placement
import TrackingPlan.Proofs.Layout.Imports
import TrackingPlan.Proofs.Path.Extension

/-!
# Where imports lead

A specifier is followed from the directory of its module. It leads to the
shared definitions or to the implementation exactly when the module is as far
below the output directory as its imports take for granted, and only the name
of a screen may put it elsewhere.
-/

namespace TrackingPlan.Command

open TypeScript

/-- What it means that a module is imported by a path: a known extension behind
a name is dropped, and nothing else is. -/
structure ImportedAs (module imported : Path) : Prop where
  names_eq : ∀ directory stem extension, module.names = directory ++ [stem ++ "." ++ extension] →
    extension ∈ Settings.moduleExtensions → stem ≠ "" → stem ≠ "." →
      imported.names = directory ++ [stem] ∧ imported.isAbsolute = module.isAbsolute
  eq_self : (∀ directory stem extension, module.names = directory ++ [stem ++ "." ++ extension] →
    extension ∈ Settings.moduleExtensions → stem = "") → imported = module

theorem importedAs_importedPath (module : Path) :
    ImportedAs module (Settings.importedPath module) := by
  refine ⟨fun directory stem extension hnames hknown hempty hdot => ?_, fun hunknown => ?_⟩
  · have hplain : ∀ extension ∈ Settings.moduleExtensions, '.' ∉ extension.toList := by
      decide
    obtain ⟨hextension, hdropped⟩ :=
      Path.dropExtension_of_names hnames hempty hdot (hplain extension hknown)
    have himported : Settings.importedPath module = module.dropExtension := by
      rw [Settings.importedPath, hextension]
      exact if_pos (List.contains_iff_mem.mpr hknown)
    rw [himported]
    exact hdropped
  · unfold Settings.importedPath
    split
    next extension hextension =>
      split
      next hknown =>
        obtain ⟨directory, stem, hnames, hne⟩ := Path.exists_names_of_extension? hextension
        exact absurd (hunknown directory stem extension hnames (List.contains_iff_mem.mp hknown)) hne
      next => rfl
    next => rfl

/-- The directory of the file that a module is written to. -/
def moduleDirectory (workingDirectory : List String) (output : Path) (path : List String) :
    List String :=
  ((output.join ⟨modulePath path⟩).location workingDirectory).dropLast

/-- Where an import is meant to lead. -/
def importTarget (workingDirectory : List String) (settings : Settings) :
    Import → Option (List String)
  | .allAs _ _ => some (settings.output.location workingDirectory ++ [sharedDefinitions])
  | .defaultAs _ _ => settings.implementation.map fun module =>
      (Settings.importedPath module).location workingDirectory

/-- Followed from the directory of its module, an import leads where it is meant to. -/
def Resolves (workingDirectory : List String) (settings : Settings) (group : ModuleGroup)
    (entry : Import) : Prop :=
  importTarget workingDirectory settings entry =
    some (Path.follow (moduleDirectory workingDirectory settings.output group.path)
      (Path.names ⟨entry.source⟩))

/-- The directory of the module is in the directory that its imports lead up to. -/
def InPlace (workingDirectory : List String) (output : Path) (group : ModuleGroup) : Prop :=
  ∀ name, group.path = ["screens", name] →
    (moduleDirectory workingDirectory output group.path).dropLast =
      output.location workingDirectory

theorem resolve_eq_ok {workingDirectory location : List String} {path : Path}
    (hresolve : Settings.resolve workingDirectory path = .ok location) :
    location = path.location workingDirectory := by
  unfold Settings.resolve at hresolve
  split at hresolve
  next found hfound =>
    obtain rfl := Except.ok.inj hresolve
    exact Path.eq_location_of_resolve? hfound
  next => cases hresolve

theorem implementationImport_eq_ok {workingDirectory : List String} {output module : Path}
    {source : String}
    (hsource : Settings.implementationImport workingDirectory output module = .ok source) :
    source = Text.join "/" (Path.relative (output.location workingDirectory)
      ((Settings.importedPath module).location workingDirectory)) := by
  obtain ⟨root, hroot, hsource⟩ := bind_eq_ok_iff.mp hsource
  obtain ⟨target, htarget, hsource⟩ := bind_eq_ok_iff.mp hsource
  rw [← resolve_eq_ok hroot, ← resolve_eq_ok htarget]
  exact (Except.ok.inj hsource).symm

/-- The implementation as the settings name it, and its path from the output directory. -/
theorem exists_of_implementationImport? {workingDirectory : List String} {settings : Settings}
    {source : String}
    (hsource : settings.implementationImport? workingDirectory = .ok (some source)) :
    ∃ module, settings.implementation = some module ∧
      source = Text.join "/" (Path.relative (settings.output.location workingDirectory)
        ((Settings.importedPath module).location workingDirectory)) := by
  unfold Settings.implementationImport? at hsource
  cases hmodule : settings.implementation with
  | none =>
      rw [hmodule] at hsource
      cases hsource
  | some module =>
      rw [hmodule] at hsource
      refine ⟨module, rfl, ?_⟩
      cases himport : Settings.implementationImport workingDirectory settings.output module with
      | error fault =>
          simp only [himport] at hsource
          cases hsource
      | ok text =>
          simp only [himport] at hsource
          obtain rfl := Option.some.inj (Except.ok.inj hsource)
          exact implementationImport_eq_ok himport

/-- From the output directory, the path of the implementation leads to it. -/
theorem follow_implementationImport {source target : List String}
    (htarget : ∀ name ∈ target, Path.IsStepDown name) :
    Path.follow source (Path.names ⟨Text.join "/" (Path.relative source target)⟩) = target := by
  rw [Path.names_join_relative source htarget]
  exact Path.follow_relative source fun hmem => (htarget _ hmem).ne_above rfl

/-- From the directory where its imports lead up to the output directory, all of
them lead where they are meant to. -/
theorem resolves_of_follow {workingDirectory : List String} {settings : Settings}
    {group : ModuleGroup} {layout : LayoutOptions} {depth : Nat} {entry : Import}
    (hdirectory : ∀ name ∈ workingDirectory, Path.IsStepDown name)
    (himplementation : settings.implementationImport? workingDirectory =
      .ok layout.implementation)
    (habove : Path.follow (moduleDirectory workingDirectory settings.output group.path)
      (List.replicate depth "..") = settings.output.location workingDirectory)
    (hentry : Item.imported entry ∈ moduleImports layout depth) :
    Resolves workingDirectory settings group entry := by
  have hfollow : ∀ text, Path.follow (moduleDirectory workingDirectory settings.output group.path)
      (Path.names ⟨relativeTo depth text⟩) =
        Path.follow (settings.output.location workingDirectory) (Path.names ⟨text⟩) := by
    intro text
    rw [names_relativeTo, Path.follow_append, habove]
  rcases List.mem_cons.mp hentry with hshared | himplemented
  · obtain rfl := Item.imported.inj hshared
    have hnames : Path.names ⟨sharedDefinitions⟩ = [sharedDefinitions] := rfl
    rw [Resolves, TypeScript.Import.source, hfollow, hnames,
      Path.follow_singleton _ (by decide)]
    rfl
  · obtain ⟨source, hsource, hmapped⟩ :=
      Option.map_eq_some_iff.mp (Option.mem_toList.mp himplemented)
    obtain rfl := Item.imported.inj hmapped
    rw [hsource] at himplementation
    obtain ⟨module, hmodule, rfl⟩ := exists_of_implementationImport? himplementation
    have htarget := Path.isStepDown_of_mem_location hdirectory (Settings.importedPath module)
    rw [Resolves, TypeScript.Import.source, hfollow, follow_implementationImport htarget,
      importTarget, hmodule]
    rfl

/-- A module in the output directory itself. -/
theorem moduleDirectory_root (workingDirectory : List String) (output : Path) {name : String}
    (hname : name ∈ rootModules) :
    moduleDirectory workingDirectory output [name] = output.location workingDirectory := by
  rw [moduleDirectory, location_join_modulePath (isAbsolute_modulePath_root hname),
    moduleWay_root hname, Path.Way.follow_of_up_eq_zero rfl, List.dropLast_concat]

/-- The module of a screen whose name has no slash. -/
theorem moduleDirectory_screen (workingDirectory : List String) (output : Path) {name : String}
    (hslash : '/' ∉ name.toList) :
    moduleDirectory workingDirectory output ["screens", name] =
      output.location workingDirectory ++ ["screens"] := by
  rw [moduleDirectory, location_join_modulePath (isAbsolute_modulePath_screen name), ← screenWay,
    screenWay_of_no_slash hslash, Path.Way.follow_of_up_eq_zero rfl,
    List.dropLast_append_of_ne_nil (List.cons_ne_nil _ _)]
  rfl

/-- All imports of a module lead where they are meant to exactly when it is in place. -/
theorem resolves_iff_inPlace {workingDirectory : List String} {settings : Settings}
    {group : ModuleGroup} {layout : LayoutOptions}
    (hdirectory : ∀ name ∈ workingDirectory, Path.IsStepDown name)
    (himplementation : settings.implementationImport? workingDirectory =
      .ok layout.implementation)
    (hlaidOut : group.LaidOut layout) :
    (∀ entry, Item.imported entry ∈ group.items → Resolves workingDirectory settings group entry) ↔
      InPlace workingDirectory settings.output group := by
  constructor
  · intro hresolves name hpath
    -- Every module of a screen imports the shared definitions, which tell where it is.
    have hshared := Option.some.inj (hresolves _ (hlaidOut.shared_mem name hpath))
    have hnames : Path.names ⟨sharedDefinitions⟩ = [sharedDefinitions] := rfl
    have hdepth : List.replicate 1 ".." = [".."] := rfl
    rw [TypeScript.Import.source, names_relativeTo, hnames, Path.follow_append, hdepth,
      Path.follow_upwards, Path.follow_singleton _ (by decide)] at hshared
    exact (List.append_inj' hshared rfl).1.symm
  · intro hplace entry hentry
    refine resolves_of_follow hdirectory himplementation ?_ (hlaidOut.imports_mem entry hentry)
    rcases hlaidOut.path_eq with ⟨name, hname, hpath⟩ | ⟨name, hpath⟩
    · have hdepth : List.replicate ([name].length - 1) ".." = [] := rfl
      rw [hpath, hdepth, moduleDirectory_root workingDirectory settings.output hname]
      rfl
    · have hdepth : List.replicate (["screens", name].length - 1) ".." = [".."] := rfl
      rw [← hplace name hpath, hpath, hdepth, Path.follow_upwards]

theorem inPlace_of_no_slash {workingDirectory : List String} {output : Path} {group : ModuleGroup}
    (hnames : ∀ name, group.path = ["screens", name] → '/' ∉ name.toList) :
    InPlace workingDirectory output group := by
  intro name hpath
  rw [hpath, moduleDirectory_screen workingDirectory output (hnames name hpath),
    List.dropLast_concat]

/-- Of all that a run prepares, every specifier says that it is relative, and the
imports of a module lead where they are meant to exactly when it is in place. A
module is in place in particular when it is not of a screen with a slash in its
name. -/
theorem imports_resolve_iff {tree after : FileTree} {options : Options} {output : Path}
    {files : List GeneratedFile}
    (hdirectory : ∀ name ∈ tree.workingDirectory, Path.IsStepDown name)
    (hprepared : (prepare (m := StateM FileTree) options).run.run tree =
      (.ok (output, files), after)) :
    ∃ config settings groups, configOn tree options = .ok config ∧
      Settings.of options config = .ok settings ∧ settings.output = output ∧
      planned tree options = .ok (output, groups) ∧
      files.map (fun file => (file.path, file.text)) =
        groups.map (fun group => (modulePath group.path, moduleText group.items)) ∧
      (∀ module, settings.implementation = some module →
        ImportedAs module (Settings.importedPath module)) ∧
      ∀ group ∈ groups,
        (∀ entry, Item.imported entry ∈ group.items →
          ['.', '/'] <+: entry.source.toList ∨ ['.', '.', '/'] <+: entry.source.toList) ∧
        ((∀ entry, Item.imported entry ∈ group.items →
          Resolves tree.workingDirectory settings group entry) ↔
            InPlace tree.workingDirectory output group) ∧
        ((∀ name, group.path = ["screens", name] → '/' ∉ name.toList) →
          InPlace tree.workingDirectory output group) := by
  rw [reads_prepare FileTree.holdsTree] at hprepared
  obtain ⟨hprepared, -⟩ := Prod.mk.inj hprepared
  obtain ⟨⟨root, groups⟩, hplanned, hfiles⟩ := bind_eq_ok_iff.mp hprepared
  obtain ⟨rendered, hrendered, hpair⟩ := bind_eq_ok_iff.mp hfiles
  obtain ⟨rfl, rfl⟩ := Prod.mk.inj (Except.ok.inj hpair)
  obtain ⟨config, settings, implementation, hconfig, hsettings, rfl, himplementation, hlaidOut⟩ :=
    laidOut_of_planned hplanned
  refine ⟨config, settings, groups, hconfig, hsettings, rfl, hplanned, ?_,
    fun module _ => importedAs_importedPath module, fun group hgroup => ⟨?_, ?_, ?_⟩⟩
  · refine map_eq_of_mapM hrendered fun group file hfile => ?_
    obtain ⟨onDisk, -, rfl⟩ := renderedOn_eq_ok_iff.mp hfile
    rfl
  · intro entry hentry
    obtain ⟨path, hsource⟩ := exists_source_eq ((hlaidOut group hgroup).imports_mem entry hentry)
    rw [hsource]
    exact relativeTo_starts _ path
  · exact resolves_iff_inPlace hdirectory himplementation (hlaidOut group hgroup)
  · exact inPlace_of_no_slash

/-- A tree with a plan of one screen in its working directory. -/
def workTree (key : String) : FileTree :=
  ⟨.directory [("work", .directory
    [("p.yaml", .file (.text ("screens:\n  " ++ key ++ ": {}\n")))])], ["work"]⟩

def workOptions : Options :=
  { Options.none with
    input := some ⟨"p.yaml"⟩, output := some ⟨"o"⟩, implementation := some ⟨"lib/track.ts"⟩ }

def workSettings : Settings := ⟨⟨"p.yaml"⟩, ⟨"o"⟩, some ⟨"lib/track.ts"⟩, true⟩

theorem home_imports_resolve : ∃ groups,
    planned (workTree "Home") workOptions = .ok (⟨"o"⟩, groups) ∧
    groups.map (·.path) =
      [["shared-definitions"], ["screens", "Home"], ["tracks"], ["shared-traits"]] ∧
    ∀ group ∈ groups, ∀ entry, Item.imported entry ∈ group.items →
      Resolves ["work"] workSettings group entry := by
  have hdirectory : ∀ name ∈ ["work"], Path.IsStepDown name := by
    rw [List.forall_mem_singleton]
    exact ⟨by decide, by decide, by decide, by decide⟩
  have hok : ((prepare (m := StateM FileTree) workOptions).run.run (workTree "Home")).1.isOk =
      true := by decide +kernel
  have hpaths : plannedPaths (workTree "Home") workOptions = .ok (⟨"o"⟩,
      [["shared-definitions"], ["screens", "Home"], ["tracks"], ["shared-traits"]]) := by
    decide +kernel
  obtain ⟨groups, hplanned, hgroups⟩ := exists_of_plannedPaths hpaths
  have hconfigOn : configOn (workTree "Home") workOptions = .ok .empty := rfl
  rcases hrun : (prepare (m := StateM FileTree) workOptions).run.run (workTree "Home") with
    ⟨fault | ⟨output, files⟩, after⟩
  · rw [hrun] at hok
    cases hok
  obtain ⟨config, settings, found, hconfig, hsettings, -, hfound, -, -, hresolves⟩ :=
    imports_resolve_iff hdirectory hrun
  obtain ⟨rfl, rfl⟩ := Prod.mk.inj (Except.ok.inj (hplanned.symm.trans hfound))
  obtain rfl := Except.ok.inj (hconfigOn.symm.trans hconfig)
  obtain rfl : workSettings = settings := Except.ok.inj hsettings
  refine ⟨groups, hplanned, hgroups, fun group hgroup => ?_⟩
  obtain ⟨-, hiff, hinPlace⟩ := hresolves group hgroup
  refine hiff.mpr (hinPlace fun name hpath => ?_)
  have hname : ["screens", name] ∈ groups.map (·.path) := hpath ▸ List.mem_map_of_mem hgroup
  rw [hgroups] at hname
  obtain rfl : name = "Home" := by simpa using hname
  decide

/-- With a slash in the name of its screen, a module is deeper than its imports
take for granted. -/
theorem slash_import_not_resolved : ∃ groups group,
    configOn (workTree "a/b") workOptions = .ok .empty ∧
    Settings.of workOptions .empty = .ok workSettings ∧
    planned (workTree "a/b") workOptions = .ok (workSettings.output, groups) ∧
    group ∈ groups ∧
    moduleDirectory ["work"] workSettings.output group.path = ["work", "o", "screens", "a"] ∧
    Item.imported (.allAs sharedAlias "../shared-definitions") ∈ group.items ∧
    ¬ Resolves ["work"] workSettings group (.allAs sharedAlias "../shared-definitions") := by
  have hpaths : plannedPaths (workTree "a/b") workOptions = .ok (⟨"o"⟩,
      [["shared-definitions"], ["screens", "a/b"], ["tracks"], ["shared-traits"]]) := by
    decide +kernel
  have hsource : relativeTo 1 sharedDefinitions = "../shared-definitions" := by decide +kernel
  obtain ⟨groups, hplanned, hgroups⟩ := exists_of_plannedPaths hpaths
  have hscreen : ["screens", "a/b"] ∈ groups.map (·.path) := by
    rw [hgroups]
    decide
  obtain ⟨group, hgroup, hpath⟩ := List.mem_map.mp hscreen
  obtain ⟨_, _, _, -, -, -, -, hlaidOut⟩ := laidOut_of_planned hplanned
  have hshared := (hlaidOut group hgroup).shared_mem "a/b" hpath
  rw [sharedImport, hsource] at hshared
  refine ⟨groups, group, rfl, rfl, hplanned, hgroup, ?_, hshared, ?_⟩
  · rw [hpath]
    decide +kernel
  · rw [Resolves, hpath]
    decide +kernel

end TrackingPlan.Command
