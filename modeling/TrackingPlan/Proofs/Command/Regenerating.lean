import Mathlib.Data.List.Nodup
import TrackingPlan.Proofs.Command.Arguments
import TrackingPlan.Proofs.Command.Writing

/-!
# Generating again

A run compares a module with the file at one path and writes it to another.
The paths are the same unless the name of a screen starts with a slash, and
two modules may still share a file. A second run is idle exactly when every
module is found again where it is looked for.
-/

namespace TrackingPlan.Command

open FileTree (Wrote lastWritten)

/-- The compared path is the written one, unless the name starts with a slash. -/
theorem comparedPath_screen_eq_iff (output : Path) (name : String) :
    comparedPath output ["screens", name] = output.join ⟨modulePath ["screens", name]⟩ ↔
      name.toList.head? ≠ some '/' := by
  obtain ⟨front, hfront⟩ := Path.exists_join_eq output
  have hmodule := modulePath_screen name
  have habsolute : (⟨name ++ ".ts"⟩ : Path).isAbsolute = (name.toList.head? == some '/') := by
    cases hname : name.toList with
    | nil => simp [Path.isAbsolute, hname]
    | cons c rest => simp [Path.isAbsolute, hname]
  have hwritten : output.join ⟨modulePath ["screens", name]⟩ =
      ⟨front ++ "screens" ++ "/" ++ (name ++ ".ts")⟩ := by
    rw [hfront _ (by simp [Path.isAbsolute, hmodule]), hmodule]
    simp only [String.append_assoc]
  have hcompared : comparedPath output ["screens", name] =
      Path.join ⟨front ++ "screens"⟩ ⟨name ++ ".ts"⟩ :=
    congrArg (Path.join · ⟨name ++ ".ts"⟩) (hfront ⟨"screens"⟩ rfl)
  rw [hcompared, hwritten]
  cases hslash : name.toList.head? == some '/' with
  | true =>
      rw [hslash] at habsolute
      simp only [Path.join, habsolute, if_true, Path.mk.injEq, ne_eq, beq_iff_eq.mp hslash,
        not_true_eq_false, iff_false]
      intro heq
      -- The absolute path stands for itself, without the names in front of it.
      have hlength := congrArg String.length heq
      simp only [String.length_append] at hlength
      have hscreens : "screens".length = 7 := rfl
      omega
  | false =>
      rw [hslash] at habsolute
      rw [Path.join_append_of_getLast? (c := 's') rfl (by decide) habsolute]
      simpa using hslash

theorem locate_defaultConfig_iff {tree : FileTree} {location : List String} :
    tree.locate defaultConfig = .ok location ↔
      tree.look tree.workingDirectory = .directory ∧
        tree.workingDirectory ++ ["adx.toml"] = location := by
  have husable : defaultConfig.text.toList.any (·.toNat == 0) = false ∧
      defaultConfig.text ≠ "" ∧ defaultConfig.text.utf8ByteSize ≤ FileTree.pathLimit := by
    decide
  have hpassed : FileTree.passed defaultConfig = ["adx.toml"] := rfl
  have hsize : "adx.toml".utf8ByteSize ≤ FileTree.nameLimit := by decide
  have hstart : tree.start defaultConfig = tree.workingDirectory := rfl
  have hstep : FileTree.step tree.workingDirectory "adx.toml" =
      tree.workingDirectory ++ ["adx.toml"] := rfl
  rw [FileTree.locate_eq_ok_iff, hpassed, hstart, FileTree.walk_cons_eq_ok_iff, hstep]
  simp [husable, hsize, FileTree.walk]

/-- No file that a run writes is the default configuration. -/
theorem isFile_defaultConfig {log : List (List String × String)} {before after : FileTree}
    (hwrote : Wrote log before after)
    (hlog : ∀ written ∈ log, ∃ directory last, written.1 = directory ++ [last ++ ".ts"]) :
    after.isFile defaultConfig = before.isFile defaultConfig := by
  have hunwritten : ∀ directory : List String,
      (after.look (directory ++ ["adx.toml"])).contents? =
        (before.look (directory ++ ["adx.toml"])).contents? := by
    intro directory
    -- Written files have the ending of a module.
    have hnone : lastWritten log (directory ++ ["adx.toml"]) = none := by
      rw [FileTree.lastWritten_eq_none_iff]
      intro written hwritten heq
      obtain ⟨above, last, hend⟩ := hlog written hwritten
      have hname := congrArg (·.getLast?) (hend.symm.trans heq)
      simp only [List.getLast?_concat, Option.some.injEq] at hname
      have hchar := congrArg (·.toList.getLast?) hname
      simp at hchar
    rw [hwrote.contents_eq, hnone]
    rfl
  rw [Bool.eq_iff_iff, FileTree.isFile_iff, FileTree.isFile_iff]
  constructor
  · rintro ⟨location, contents, hlocate, hcontents⟩
    obtain ⟨-, rfl⟩ := locate_defaultConfig_iff.mp hlocate
    rw [hunwritten, hwrote.workingDirectory_eq] at hcontents
    refine ⟨_, contents, locate_defaultConfig_iff.mpr ⟨?_, rfl⟩, hcontents⟩
    refine Entry.look_of_look_append (List.cons_ne_nil "adx.toml" []) fun hnothing => ?_
    rw [FileTree.look, hnothing] at hcontents
    cases hcontents
  · rintro ⟨location, contents, hlocate, hcontents⟩
    obtain ⟨-, rfl⟩ := locate_defaultConfig_iff.mp hlocate
    exact ⟨_, contents, hwrote.locate_eq_ok hlocate, (hunwritten _).trans hcontents⟩

/-- The files of the modules, with the texts that they should have. -/
def freshFile (group : ModuleGroup) : GeneratedFile where
  path := modulePath group.path
  text := TypeScript.moduleText group.items
  onDisk := some (TypeScript.moduleText group.items)

/-- A module is found where it is looked for: its text was written there last,
or nothing was written there and the text was there before. -/
def FoundAgain (before after : FileTree) (output : Path) (groups : List ModuleGroup)
    (files : List GeneratedFile) : Prop :=
  ∀ group ∈ groups, ∃ location,
    after.locate (comparedPath output group.path) = .ok location ∧
      ((lastWritten (writtenLog before.workingDirectory output files) location).map
        Contents.text).or (before.look location).contents? =
          some (.text (TypeScript.moduleText group.items))

/-- What is said when no file had to be written. -/
def idleText (colours : Bool) (output : Path) (count : Nat) : String :=
  tick colours ++ " Generated " ++ toString count ++ " file(s) in " ++ output.text ++
    ": 0 created, 0 modified, " ++ toString count ++ " unchanged\n"

/-- The run is idle on the tree, and so is the check in its place. -/
def Settled (colours : Bool) (arguments : List String) (tree : FileTree) : Prop :=
  (∃ output count, (run (m := StateM FileTree) colours ("transliterate" :: arguments)).run tree =
    (.ok (idleText colours output count), tree)) ∧
  ∃ printed, (run (m := StateM FileTree) colours
    ("transliterate" :: "--check" :: arguments)).run tree = (.ok printed, tree)

theorem foundAgain_iff {before after : FileTree} {output : Path} {groups : List ModuleGroup}
    {files : List GeneratedFile}
    (hwrote : Wrote (writtenLog before.workingDirectory output files) before after) :
    FoundAgain before after output groups files ↔
      ∀ group ∈ groups, renderedOn after output group = .ok (freshFile group) := by
  have hfound : ∀ group : ModuleGroup, renderedOn after output group = .ok (freshFile group) ↔
      after.readText (comparedPath output group.path) =
        .ok (TypeScript.moduleText group.items) := by
    intro group
    rw [renderedOn_eq_ok_iff, ← existingOn_eq_some_iff]
    simp [freshFile]
  simp only [hfound, FileTree.readText_eq_ok_iff, hwrote.contents_eq]
  rfl

theorem fresh_of_not_stale {tree : FileTree} {output : Path} {group : ModuleGroup}
    {file : GeneratedFile} (hrendered : renderedOn tree output group = .ok file)
    (hstale : file.isStale = false) : file = freshFile group := by
  obtain ⟨onDisk, -, rfl⟩ := renderedOn_eq_ok_iff.mp hrendered
  cases onDisk with
  | none => simp [GeneratedFile.isStale, GeneratedFile.isNew] at hstale
  | some text =>
      simp only [GeneratedFile.isStale, GeneratedFile.isNew, GeneratedFile.isModified,
        Option.isNone_some, Bool.false_or, bne_eq_false_iff_eq] at hstale
      rw [freshFile, hstale]

theorem isStale_freshFile (group : ModuleGroup) : (freshFile group).isStale = false := by
  simp [freshFile, GeneratedFile.isStale, GeneratedFile.isNew, GeneratedFile.isModified]

theorem writtenText_fresh (colours : Bool) (output : Path) (groups : List ModuleGroup) :
    writtenText colours output (groups.map freshFile) = idleText colours output groups.length := by
  have hcreated : (groups.map freshFile).countP (·.isNew) = 0 := by
    simp [List.countP_eq_zero, freshFile, GeneratedFile.isNew]
  have hmodified : (groups.map freshFile).countP (·.isModified) = 0 := by
    simp [List.countP_eq_zero, freshFile, GeneratedFile.isModified]
  have hcounts : ": 0 created, 0 modified, " = ": " ++ toString 0 ++ " created, " ++
      toString 0 ++ " modified, " := rfl
  rw [writtenText, hcreated, hmodified, List.length_map, idleText, hcounts]
  simp only [String.append_assoc, Nat.sub_zero]

/-- A check is content exactly with files that need not be written. -/
theorem check_eq_ok_iff {colours : Bool} {files : List GeneratedFile} :
    (∃ printed, check colours files = .ok printed) ↔ ∀ file ∈ files, file.isStale = false := by
  have hcount : files.countP (·.isStale) = 0 ↔ ∀ file ∈ files, file.isStale = false := by
    simp [List.countP_eq_zero]
  rw [← hcount]
  unfold check
  cases files.countP (·.isStale) with
  | zero => simp
  | succ count => simp [Outcome.ok, Outcome.failed]

theorem run_eq_generate {colours : Bool} {arguments : List String} {options : Options}
    (hrequest : Request.ofArguments arguments = .ok (.generate options)) :
    run (m := StateM FileTree) colours arguments = generate colours options := by
  rw [run, hrequest]

/-- On any tree, a run is idle exactly when all modules are on disk already. -/
theorem settled_iff {colours : Bool} {arguments : List String} {options : Options}
    {tree : FileTree} {output : Path} {groups : List ModuleGroup}
    (hrequest : Request.ofArguments ("transliterate" :: arguments) = .ok (.generate options))
    (hgenerates : options.isCheck = false)
    (hplanned : planned tree options = .ok (output, groups)) :
    Settled colours arguments tree ↔
      ∀ group ∈ groups, renderedOn tree output group = .ok (freshFile group) := by
  have hchecks := ofArguments_check hrequest hgenerates
  have hprepared : preparedOn tree options =
      groups.mapM (renderedOn tree output) >>= fun files => .ok (output, files) := by
    rw [preparedOn, hplanned]
    rfl
  have hpreparedCheck : preparedOn tree options.checked = preparedOn tree options := rfl
  unfold Settled
  rw [run_eq_generate hrequest, run_eq_generate hchecks, run_generate FileTree.holdsTree,
    run_generate FileTree.holdsTree, hpreparedCheck, hprepared]
  constructor
  · rintro ⟨-, printed, hcheck⟩ group hgroup
    cases hfiles : groups.mapM (renderedOn tree output) with
    | error fault =>
        rw [hfiles] at hcheck
        cases hcheck
    | ok files =>
        rw [hfiles] at hcheck
        have hfresh := check_eq_ok_iff.mp ⟨printed, (Prod.mk.inj hcheck).1⟩
        obtain ⟨file, hfile, hrendered⟩ := exists_mem_of_mapM hfiles hgroup
        rw [hrendered, fresh_of_not_stale hrendered (hfresh file hfile)]
  · intro hfresh
    have hfiles := mapM_eq_ok_map hfresh
    have hstale : ∀ file ∈ groups.map freshFile, file.isStale = false := by
      simp [isStale_freshFile]
    have hidle : writeFiles (m := StateM FileTree) output (groups.map freshFile) = pure () := by
      have hnone : (groups.map freshFile).filter (·.isStale) = [] := by
        simp [isStale_freshFile]
      rw [writeFiles, hnone]
      rfl
    obtain ⟨printed, hcheck⟩ := check_eq_ok_iff.mpr hstale
    rw [hfiles, hgenerates]
    refine ⟨⟨output, groups.length, ?_⟩, printed, ?_⟩
    · simp only [bind, Except.bind, Bool.false_eq_true, if_false, hidle, writtenText_fresh]
      rfl
    · exact congrArg (·, tree) hcheck

/-- Modules that are written where they are looked for, each to a file of its own, are found. -/
theorem foundAgain_of_apart {before after : FileTree} {output : Path} {groups : List ModuleGroup}
    {files : List GeneratedFile}
    (hwrote : Wrote (writtenLog before.workingDirectory output files) before after)
    (hlocated : ∀ file ∈ files, file.isStale → ∃ location,
      after.locate (writtenPath output file) = .ok location)
    (hrendered : groups.mapM (renderedOn before output) = .ok files)
    (hpaths : ∀ group ∈ groups,
      comparedPath output group.path = output.join ⟨modulePath group.path⟩)
    (hapart : (files.map (target? before.workingDirectory output)).Nodup) :
    FoundAgain before after output groups files := by
  intro group hgroup
  obtain ⟨file, hfile, hfileOf⟩ := exists_mem_of_mapM hrendered hgroup
  obtain ⟨onDisk, hexisting, heq⟩ := renderedOn_eq_ok_iff.mp hfileOf
  have hcompared : comparedPath output group.path = writtenPath output file := by
    rw [hpaths group hgroup, ← heq]
    rfl
  have htext : file.text = TypeScript.moduleText group.items := by rw [← heq]
  have halone : ∀ other ∈ files, ∀ location,
      target? before.workingDirectory output other = some location →
      target? before.workingDirectory output file = some location → other = file :=
    fun other hother location hlocation htarget =>
      List.inj_on_of_nodup_map hapart hother hfile (hlocation.trans htarget.symm)
  by_cases hstale : file.isStale = true
  · obtain ⟨location, hlocate⟩ := hlocated file hfile hstale
    have htarget : target? before.workingDirectory output file = some location :=
      hwrote.workingDirectory_eq ▸ FileTree.resolve?_of_locate hlocate
    -- No other file has this location, so that the last text there is that of the module.
    have hlast : lastWritten (writtenLog before.workingDirectory output files) location =
        some file.text := by
      refine FileTree.lastWritten_eq_some
        (mem_writtenLog_iff.mpr ⟨file, hfile, hstale, htarget, rfl⟩) ?_
      rintro written hwritten rfl
      obtain ⟨other, hother, -, hlocation, hother_text⟩ := mem_writtenLog_iff.mp hwritten
      rw [← hother_text, halone other hother _ hlocation htarget]
    refine ⟨location, hcompared ▸ hlocate, ?_⟩
    rw [hlast, htext]
    rfl
  · have hfresh := fresh_of_not_stale hfileOf (Bool.not_eq_true _ ▸ hstale)
    -- A file that was up to date is left alone, also by the other modules.
    have hread : before.readText (comparedPath output group.path) =
        .ok (TypeScript.moduleText group.items) := by
      rw [← existingOn_eq_some_iff, hexisting]
      rw [hfresh] at heq
      exact congrArg Except.ok (congrArg GeneratedFile.onDisk heq)
    obtain ⟨location, hlocate, hcontents⟩ := FileTree.readText_eq_ok_iff.mp hread
    have hunwritten : lastWritten (writtenLog before.workingDirectory output files) location =
        none := by
      rw [FileTree.lastWritten_eq_none_iff]
      rintro written hwritten rfl
      obtain ⟨other, hother, hother_stale, hlocation, -⟩ := mem_writtenLog_iff.mp hwritten
      have htarget := FileTree.resolve?_of_locate (hcompared ▸ hlocate)
      exact hstale (halone other hother _ hlocation htarget ▸ hother_stale)
    refine ⟨location, hwrote.locate_eq_ok hlocate, ?_⟩
    rw [hunwritten, hcontents]
    rfl

/-- After a run that went well, and that has kept its sources, generating again
is idle exactly when every module is found again. It is so in particular when
no screen has a name with a slash in front and no two modules share a file. -/
theorem regenerating_settled_iff {colours : Bool} {arguments : List String} {options : Options}
    {tree after : FileTree} {outcome : Outcome}
    (hrequest : Request.ofArguments ("transliterate" :: arguments) = .ok (.generate options))
    (hgenerates : options.isCheck = false)
    (hrun : (run (m := StateM FileTree) colours ("transliterate" :: arguments)).run tree =
      (outcome, after))
    (hcode : outcome.code = 0)
    (hsources : ∀ path ∈ sources tree options, after.readText path = tree.readText path) :
    (∀ (output : Path) (name : String),
      comparedPath output ["screens", name] = output.join ⟨modulePath ["screens", name]⟩ ↔
        name.toList.head? ≠ some '/') ∧
    ∃ output groups files, planned tree options = .ok (output, groups) ∧
      groups.mapM (renderedOn tree output) = .ok files ∧
      (Settled colours arguments after ↔ FoundAgain tree after output groups files) ∧
      ((∀ name, ["screens", name] ∈ groups.map (·.path) → name.toList.head? ≠ some '/') →
        (groups.map fun group =>
          (output.join ⟨modulePath group.path⟩).resolve? tree.workingDirectory).Nodup →
            Settled colours arguments after) := by
  refine ⟨comparedPath_screen_eq_iff, ?_⟩
  rw [run_eq_generate hrequest] at hrun
  obtain ⟨output, groups, files, hplanned, hrendered, hwritten⟩ :=
    written_of_generate hgenerates hrun hcode
  obtain ⟨hwrote, hlocated⟩ := wrote_of_writeFiles hwritten
  have hlog : ∀ written ∈ writtenLog tree.workingDirectory output files,
      ∃ directory last, written.1 = directory ++ [last ++ ".ts"] := by
    intro written hmem
    obtain ⟨file, hfile, -, htarget, -⟩ := mem_writtenLog_iff.mp hmem
    obtain ⟨group, -, hfileOf⟩ := exists_of_mem_mapM hrendered hfile
    obtain ⟨onDisk, -, rfl⟩ := renderedOn_eq_ok_iff.mp hfileOf
    exact exists_target_eq (Text.join "/" group.path) rfl htarget
  have hconfig : configPath? after options = configPath? tree options := by
    rw [configPath?, configPath?, isFile_defaultConfig hwrote hlog]
  have hplannedAfter : planned after options = .ok (output, groups) :=
    (planned_eq_of_sources hwrote.workingDirectory_eq hconfig hsources).trans hplanned
  have hsettled : Settled colours arguments after ↔ FoundAgain tree after output groups files :=
    (settled_iff hrequest hgenerates hplannedAfter).trans (foundAgain_iff hwrote).symm
  refine ⟨output, groups, files, hplanned, hrendered, hsettled, fun hnames hapart => ?_⟩
  obtain ⟨_, _, _, -, -, -, -, hlaidOut⟩ := laidOut_of_planned hplanned
  have htargets : files.map (target? tree.workingDirectory output) = groups.map fun group =>
      (output.join ⟨modulePath group.path⟩).resolve? tree.workingDirectory := by
    refine map_eq_of_mapM hrendered fun group file hfile => ?_
    obtain ⟨onDisk, -, rfl⟩ := renderedOn_eq_ok_iff.mp hfile
    rfl
  rw [← htargets] at hapart
  refine hsettled.mpr (foundAgain_of_apart hwrote hlocated hrendered (fun group hgroup => ?_) hapart)
  rcases (hlaidOut group hgroup).path_eq with ⟨name, -, hpath⟩ | ⟨name, hpath⟩
  · rw [hpath]
    rfl
  · rw [hpath, comparedPath_screen_eq_iff]
    exact hnames name (hpath ▸ List.mem_map_of_mem hgroup)

/-- A tree with a plan of one screen and nothing else. -/
def screenTree (key : String) : FileTree :=
  ⟨.directory [("p.yaml", .file (.text ("screens:\n  " ++ key ++ ": {}\n")))], []⟩

def screenArguments : List String := ["-i", "p.yaml", "-o", "o"]

def screenOptions : Options := { Options.none with input := some ⟨"p.yaml"⟩, output := some ⟨"o"⟩ }

theorem home_settled : ∃ outcome after,
    (run (m := StateM FileTree) false ("transliterate" :: screenArguments)).run
      (screenTree "Home") = (outcome, after) ∧
    outcome.code = 0 ∧ Settled false screenArguments after := by
  have hrequest : Request.ofArguments ("transliterate" :: screenArguments) =
      .ok (.generate screenOptions) := by decide +kernel
  have hcode : ((run (m := StateM FileTree) false ("transliterate" :: screenArguments)).run
      (screenTree "Home")).1.code = 0 := by decide +kernel
  have hsources : ∀ path ∈ sources (screenTree "Home") screenOptions,
      ((run (m := StateM FileTree) false ("transliterate" :: screenArguments)).run
        (screenTree "Home")).2.readText path = (screenTree "Home").readText path := by
    decide +kernel
  have hpaths : plannedPaths (screenTree "Home") screenOptions = .ok (⟨"o"⟩,
      [["shared-definitions"], ["screens", "Home"], ["tracks"], ["shared-traits"]]) := by
    decide +kernel
  obtain ⟨groups, hplanned, hgroups⟩ := exists_of_plannedPaths hpaths
  have hrun : ∀ pair : Outcome × FileTree, pair = (pair.1, pair.2) := fun _ => rfl
  obtain ⟨-, output, found, files, hfound, -, -, hsettled⟩ :=
    regenerating_settled_iff hrequest rfl (hrun _) hcode hsources
  obtain ⟨rfl, rfl⟩ := Prod.mk.inj (Except.ok.inj (hplanned.symm.trans hfound))
  refine ⟨_, _, hrun _, hcode, hsettled ?_ ?_⟩
  · rw [hgroups]
    intro name hname
    obtain rfl : name = "Home" := by simpa [sharedDefinitions] using hname
    decide
  · have hlocations := congrArg (List.map fun path =>
      (Path.join ⟨"o"⟩ ⟨modulePath path⟩).resolve? (screenTree "Home").workingDirectory) hgroups
    rw [List.map_map] at hlocations
    refine Eq.subst (motive := List.Nodup) hlocations.symm ?_
    decide +kernel

/-- With a slash in front of its name, a screen is looked for outside of the output directory. -/
theorem slash_home_not_settled :
    ∃ (options : Options) (outcome : Outcome) (after : FileTree),
      Request.ofArguments ("transliterate" :: screenArguments) = .ok (.generate options) ∧
      options.isCheck = false ∧
      (run (m := StateM FileTree) false ("transliterate" :: screenArguments)).run
        (screenTree "/Home") = (outcome, after) ∧
      outcome.code = 0 ∧
      (∀ path ∈ sources (screenTree "/Home") options,
        after.readText path = (screenTree "/Home").readText path) ∧
      ((run (m := StateM FileTree) false ("transliterate" :: screenArguments)).run after).1 =
        .ok "✓ Generated 4 file(s) in o: 1 created, 0 modified, 3 unchanged\n" ∧
      ((run (m := StateM FileTree) false ("transliterate" :: "--check" :: screenArguments)).run
        after).1.code = 1 ∧
      ¬ Settled false screenArguments after := by
  have hrun : ∀ pair : Outcome × FileTree, pair = (pair.1, pair.2) := fun _ => rfl
  have hcheck : ((run (m := StateM FileTree) false
      ("transliterate" :: "--check" :: screenArguments)).run
        ((run (m := StateM FileTree) false ("transliterate" :: screenArguments)).run
          (screenTree "/Home")).2).1.code = 1 := by decide +kernel
  refine ⟨screenOptions, _, _, by decide +kernel, rfl, hrun _, by decide +kernel,
    by decide +kernel, by decide +kernel, hcheck, ?_⟩
  rintro ⟨-, printed, hprinted⟩
  rw [hprinted] at hcheck
  cases hcheck

end TrackingPlan.Command
