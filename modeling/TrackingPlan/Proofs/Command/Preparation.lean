import TrackingPlan.Command.Run
import TrackingPlan.Proofs.Disk.Holding
import TrackingPlan.Proofs.Layout.Groups

/-!
# What a run prepares

Up to the first file that is written, a run only looks at the tree. What it
finds out is a function of the tree: the configuration, the modules of the
plan, and what there is in their place.
-/

namespace TrackingPlan.Command

variable {α β σ : Type}

theorem run_bind (first : Run (StateM σ) α) (next : α → Run (StateM σ) β) (state : σ) :
    (first >>= next).run.run state = match first.run.run state with
      | (.ok value, after) => (next value).run.run after
      | (.error fault, after) => (.error fault, after) := by
  rw [ExceptT.run_bind, StateT.run_bind]
  rcases first.run.run state with ⟨value | fault, after⟩ <;> rfl

theorem run_liftM (computation : StateM σ α) (state : σ) :
    (liftM computation : Run (StateM σ) α).run.run state =
      (.ok (computation.run state).1, (computation.run state).2) := rfl

theorem run_orFail (fault : DiskFault → RunFault) (result : StateM σ (Except DiskFault α))
    (state : σ) : (orFail fault result).run.run state =
      ((result.run state).1.mapError fault, (result.run state).2) := rfl

variable {treeOf : σ → FileTree}

/-- On every disk the computation has this result for its tree, and leaves the disk as it is. -/
def Reads (treeOf : σ → FileTree) (computation : Run (StateM σ) α)
    (result : FileTree → Except RunFault α) : Prop :=
  ∀ state, computation.run.run state = (result (treeOf state), state)

namespace Reads

theorem pure (value : α) : Reads treeOf (Pure.pure value) fun _ => .ok value := fun _ => rfl

theorem throw (fault : RunFault) :
    Reads treeOf (MonadExcept.throw fault : Run (StateM σ) α) fun _ => .error fault := fun _ => rfl

theorem ofExcept (result : Except RunFault α) :
    Reads treeOf (ExceptT.mk (Pure.pure result)) fun _ => result := fun _ => rfl

theorem run_bind {first : Run (StateM σ) α} {next : α → Run (StateM σ) β}
    {result : FileTree → Except RunFault α} (hfirst : Reads treeOf first result) (state : σ) :
    (first >>= next).run.run state = match result (treeOf state) with
      | .ok value => (next value).run.run state
      | .error fault => (.error fault, state) := by
  rw [Command.run_bind, hfirst state]
  cases result (treeOf state) <;> rfl

theorem bind {first : Run (StateM σ) α} {next : α → Run (StateM σ) β}
    {result : FileTree → Except RunFault α} {others : α → FileTree → Except RunFault β}
    (hfirst : Reads treeOf first result)
    (hnext : ∀ value, Reads treeOf (next value) (others value)) :
    Reads treeOf (first >>= next) fun tree => result tree >>= fun value => others value tree := by
  intro state
  rw [hfirst.run_bind]
  dsimp only
  cases result (treeOf state) with
  | error fault => rfl
  | ok value => exact hnext value state

theorem mapM {run : α → Run (StateM σ) β} {result : α → FileTree → Except RunFault β}
    (hrun : ∀ item, Reads treeOf (run item) (result item)) (items : List α) :
    Reads treeOf (items.mapM run) fun tree => items.mapM fun item => result item tree := by
  induction items with
  | nil => exact pure []
  | cons item rest ih =>
      simp only [List.mapM_cons]
      exact (hrun item).bind fun value => ih.bind fun values => pure (value :: values)

section Disk

variable [Disk (StateM σ)] (hholds : Disk.HoldsTree treeOf)

include hholds

theorem isFile (path : Path) :
    Reads treeOf (liftM (Disk.isFile path : StateM σ Bool)) fun tree => .ok (tree.isFile path) := by
  intro state
  rw [run_liftM, hholds.isFile]

theorem workingDirectory :
    Reads treeOf (liftM (Disk.workingDirectory : StateM σ (List String)))
      fun tree => .ok tree.workingDirectory := by
  intro state
  rw [run_liftM, hholds.workingDirectory]

theorem readText (path : Path) : Reads treeOf (readText path)
    fun tree => (tree.readText path).mapError (.unreadable path) := by
  intro state
  rw [Command.readText, run_orFail, hholds.readText]

end Disk

end Reads

/-- The file of the configuration: the one that is asked for, or the default if it is there. -/
def configPath? (tree : FileTree) (options : Options) : Option Path :=
  options.config.or (if tree.isFile defaultConfig then some defaultConfig else none)

def configAt (tree : FileTree) (path : Path) : Except RunFault Config := do
  let text ← (tree.readText path).mapError (.unreadable path)
  (Config.ofText (path.parent?.getD ⟨""⟩) text).mapError (.config path)

def configOn (tree : FileTree) (options : Options) : Except RunFault Config :=
  match configPath? tree options with
  | some path => configAt tree path
  | none => .ok .empty

/-- The output directory and the modules that belong there. -/
def planned (tree : FileTree) (options : Options) : Except RunFault (Path × List ModuleGroup) := do
  let config ← configOn tree options
  let settings ← Settings.of options config
  let implementation ← settings.implementationImport? tree.workingDirectory
  let text ← (tree.readText settings.input).mapError (.unreadable settings.input)
  let groups ← (planGroups config.registry ⟨implementation, settings.isAsync⟩ text).mapError
    (.plan settings.input)
  return (settings.output, groups)

theorem laidOut_of_planGroups {formats : FormatRegistry} {layout : LayoutOptions} {text : String}
    {groups : List ModuleGroup} (hgroups : planGroups formats layout text = .ok groups) :
    ∀ group ∈ groups, group.LaidOut layout := by
  obtain ⟨definition, -, hgroups⟩ := bind_eq_ok_iff.mp hgroups
  obtain ⟨plan, -, hgroups⟩ := bind_eq_ok_iff.mp hgroups
  obtain ⟨laidOut, hlaidOut, hgroups⟩ := bind_eq_ok_iff.mp hgroups
  obtain rfl := Except.ok.inj hgroups
  exact laidOut_mergeGroups fun group hgroup => laidOut_of_mem_toGroups hlaidOut hgroup

/-- What is planned is laid out for the implementation as it is imported. -/
theorem laidOut_of_planned {tree : FileTree} {options : Options} {output : Path}
    {groups : List ModuleGroup} (hplanned : planned tree options = .ok (output, groups)) :
    ∃ config settings implementation, configOn tree options = .ok config ∧
      Settings.of options config = .ok settings ∧ settings.output = output ∧
      settings.implementationImport? tree.workingDirectory = .ok implementation ∧
      ∀ group ∈ groups, group.LaidOut ⟨implementation, settings.isAsync⟩ := by
  obtain ⟨config, hconfig, hplanned⟩ := bind_eq_ok_iff.mp hplanned
  obtain ⟨settings, hsettings, hplanned⟩ := bind_eq_ok_iff.mp hplanned
  obtain ⟨implementation, himplementation, hplanned⟩ := bind_eq_ok_iff.mp hplanned
  obtain ⟨text, -, hplanned⟩ := bind_eq_ok_iff.mp hplanned
  obtain ⟨planGroups, hgroups, hpair⟩ := bind_eq_ok_iff.mp hplanned
  obtain ⟨rfl, rfl⟩ := Prod.mk.inj (Except.ok.inj hpair)
  exact ⟨config, settings, implementation, hconfig, hsettings, rfl, himplementation,
    laidOut_of_planGroups (mapError_eq_ok_iff.mp hgroups)⟩

/-- The output directory and the paths of the modules in it. -/
def plannedPaths (tree : FileTree) (options : Options) :
    Except RunFault (Path × List (List String)) :=
  (planned tree options).map fun found => (found.1, found.2.map (·.path))

theorem exists_of_plannedPaths {tree : FileTree} {options : Options} {output : Path}
    {paths : List (List String)} (hpaths : plannedPaths tree options = .ok (output, paths)) :
    ∃ groups, planned tree options = .ok (output, groups) ∧ groups.map (·.path) = paths := by
  unfold plannedPaths at hpaths
  cases hplanned : planned tree options with
  | error fault =>
      rw [hplanned] at hpaths
      cases hpaths
  | ok found =>
      obtain ⟨root, groups⟩ := found
      rw [hplanned] at hpaths
      obtain ⟨rfl, rfl⟩ := Prod.mk.inj (Except.ok.inj hpaths)
      exact ⟨groups, rfl, rfl⟩

theorem modulePath_screen (name : String) :
    modulePath ["screens", name] = "screens" ++ "/" ++ (name ++ ".ts") := by
  simp [modulePath, Text.join, String.append_assoc]

/-- The text of a file of the tree, if there is a file. -/
def existingOn (tree : FileTree) (path : Path) : Except RunFault (Option String) :=
  if tree.isFile path then some <$> (tree.readText path).mapError (.unreadable path)
  else .ok none

theorem existingOn_eq_some_iff {tree : FileTree} {path : Path} {text : String} :
    existingOn tree path = .ok (some text) ↔ tree.readText path = .ok text := by
  unfold existingOn
  cases hread : tree.readText path with
  | error fault => cases tree.isFile path <;> simp [Except.mapError, Functor.map, Except.map]
  | ok read =>
      obtain ⟨location, hlocate, hcontents⟩ := FileTree.readText_eq_ok_iff.mp hread
      have hfile : tree.isFile path = true :=
        FileTree.isFile_iff.mpr ⟨location, _, hlocate, hcontents⟩
      simp [hfile, Except.mapError, Functor.map, Except.map]

/-- A module as a file, next to what the tree has in its place. -/
def renderedOn (tree : FileTree) (output : Path) (group : ModuleGroup) :
    Except RunFault GeneratedFile := do
  let onDisk ← existingOn tree (comparedPath output group.path)
  return { path := modulePath group.path, text := TypeScript.moduleText group.items, onDisk }

/-- What a run knows before it writes. -/
def preparedOn (tree : FileTree) (options : Options) :
    Except RunFault (Path × List GeneratedFile) := do
  let (output, groups) ← planned tree options
  let files ← groups.mapM (renderedOn tree output)
  return (output, files)

theorem renderedOn_eq_ok_iff {tree : FileTree} {output : Path} {group : ModuleGroup}
    {file : GeneratedFile} : renderedOn tree output group = .ok file ↔
      ∃ onDisk, existingOn tree (comparedPath output group.path) = .ok onDisk ∧
        ⟨modulePath group.path, TypeScript.moduleText group.items, onDisk⟩ = file := by
  unfold renderedOn
  rw [bind_eq_ok_iff]
  simp only [pure, Except.pure, Except.ok.injEq]

/-- The files that tell a run what to generate: its configuration and its plan. -/
def sources (tree : FileTree) (options : Options) : List Path :=
  (configPath? tree options).toList ++
    match configOn tree options with
    | .ok config => (options.input.or config.input).toList
    | .error _ => []

theorem input_of_settings {options : Options} {config : Config} {settings : Settings}
    (hsettings : Settings.of options config = .ok settings) :
    options.input.or config.input = some settings.input := by
  unfold Settings.of at hsettings
  split at hsettings
  next => cases hsettings
  next input hinput =>
    split at hsettings
    next => cases hsettings
    next output houtput =>
      obtain rfl := Except.ok.inj hsettings
      exact hinput

/-- The modules depend on nothing but the sources. -/
theorem planned_eq_of_sources {before after : FileTree} {options : Options}
    (hdirectory : after.workingDirectory = before.workingDirectory)
    (hconfig : configPath? after options = configPath? before options)
    (hsources : ∀ path ∈ sources before options, after.readText path = before.readText path) :
    planned after options = planned before options := by
  have hconfigOn : configOn after options = configOn before options := by
    unfold configOn
    rw [hconfig]
    cases hpath : configPath? before options with
    | none => rfl
    | some path =>
        have hread := hsources path (by simp [sources, hpath])
        simp only [configAt, hread]
  unfold planned
  rw [hconfigOn]
  cases hok : configOn before options with
  | error fault => rfl
  | ok config =>
      simp only [bind, Except.bind]
      cases hsettings : Settings.of options config with
      | error fault => rfl
      | ok settings =>
          have hinput := input_of_settings hsettings
          have hread := hsources settings.input (by simp [sources, hok, hinput])
          simp only [hdirectory, hread]

section Disk

variable [Disk (StateM σ)] (hholds : Disk.HoldsTree treeOf)

include hholds

theorem reads_readConfig (path : Path) :
    Reads treeOf (readConfig path) fun tree => configAt tree path := by
  refine (Reads.readText hholds path).bind fun text => ?_
  cases Config.ofText (path.parent?.getD ⟨""⟩) text with
  | error fault => exact Reads.throw _
  | ok config => exact Reads.pure config

theorem reads_loadConfig (options : Options) :
    Reads treeOf (loadConfig options.config) fun tree => configOn tree options := by
  intro state
  unfold configOn configPath?
  cases options.config with
  | some path => exact reads_readConfig hholds path state
  | none =>
      unfold loadConfig
      rw [(Reads.isFile hholds defaultConfig).run_bind]
      dsimp only
      cases (treeOf state).isFile defaultConfig with
      | true => exact reads_readConfig hholds defaultConfig state
      | false => rfl

theorem reads_readExisting (path : Path) :
    Reads treeOf (readExisting path) fun tree => existingOn tree path := by
  intro state
  unfold readExisting existingOn
  rw [(Reads.isFile hholds path).run_bind]
  dsimp only
  cases (treeOf state).isFile path with
  | false => rfl
  | true => exact (Reads.readText hholds path).bind (fun text => Reads.pure (some text)) state

theorem reads_renderFile (output : Path) (group : ModuleGroup) :
    Reads treeOf (renderFile output group) fun tree => renderedOn tree output group :=
  (reads_readExisting hholds _).bind fun _ => Reads.pure _

theorem reads_renderFiles (output : Path) (groups : List ModuleGroup) :
    Reads treeOf (renderFiles output groups) fun tree => groups.mapM (renderedOn tree output) :=
  Reads.mapM (reads_renderFile hholds output) groups

/-- Preparing a run is a function of the tree, which it does not change. -/
theorem reads_prepare (options : Options) :
    Reads treeOf (prepare options) fun tree => preparedOn tree options := by
  unfold prepare preparedOn planned
  simp only [bind_assoc, pure_bind]
  -- The location of the working directory is asked for as well, which never fails.
  change Reads treeOf _ fun tree => configOn tree options >>= fun config =>
    Settings.of options config >>= fun settings =>
    (.ok tree.workingDirectory : Except RunFault _) >>= fun workingDirectory =>
    settings.implementationImport? workingDirectory >>= fun implementation =>
    (tree.readText settings.input).mapError (.unreadable settings.input) >>= fun text =>
    (planGroups config.registry ⟨implementation, settings.isAsync⟩ text).mapError
      (.plan settings.input) >>= fun groups =>
    groups.mapM (renderedOn tree settings.output) >>= fun files => pure (settings.output, files)
  refine (reads_loadConfig hholds options).bind fun config => ?_
  refine (Reads.ofExcept (Settings.of options config)).bind fun settings => ?_
  refine (Reads.workingDirectory hholds).bind fun workingDirectory => ?_
  refine (Reads.ofExcept (settings.implementationImport? workingDirectory)).bind
    fun implementation => ?_
  refine (Reads.readText hholds settings.input).bind fun text => ?_
  cases planGroups config.registry ⟨implementation, settings.isAsync⟩ text with
  | error fault => exact Reads.throw _
  | ok groups =>
      exact (reads_renderFiles hholds settings.output groups).bind fun files =>
        Reads.pure (settings.output, files)

end Disk

end TrackingPlan.Command
