import TrackingPlan.Proofs.Command.Regenerating
import TrackingPlan.Proofs.GeneratedFile
import TrackingPlan.Proofs.Text.Lines

/-!
# Checking

A check looks at the same files as a run in its place, and changes none of them.
It is content exactly when that run would have nothing to write. Otherwise it
lists the files that the run would create and shows how it would change the others.
-/

namespace TrackingPlan.Command

open FileTree (Wrote)
open Text (unlines unlines_cons unlines_append)

/-- The module has its text in the file where it is looked for. -/
def IsUpToDate (tree : FileTree) (output : Path) (group : ModuleGroup) : Prop :=
  ∃ location, tree.locate (comparedPath output group.path) = .ok location ∧
    tree.look location = .file (.text (TypeScript.moduleText group.items))

/-- A module as a file that is new where there is none, and modified where there is another text. -/
structure ComparedOn (tree : FileTree) (output : Path) (group : ModuleGroup)
    (file : GeneratedFile) : Prop where
  path_eq : file.path = modulePath group.path
  text_eq : file.text = TypeScript.moduleText group.items
  isNew_iff : file.isNew = true ↔ tree.isFile (comparedPath output group.path) = false
  isModified_iff : file.isModified = true ↔ ∃ text,
    tree.readText (comparedPath output group.path) = .ok text ∧
      text ≠ TypeScript.moduleText group.items

theorem existingOn_eq_none_iff {tree : FileTree} {path : Path} :
    existingOn tree path = .ok none ↔ tree.isFile path = false := by
  unfold existingOn
  cases tree.isFile path with
  | false => simp
  | true => cases tree.readText path <;> simp [Except.mapError, Functor.map, Except.map]

theorem comparedOn_of_renderedOn {tree : FileTree} {output : Path} {group : ModuleGroup}
    {file : GeneratedFile} (hrendered : renderedOn tree output group = .ok file) :
    ComparedOn tree output group file := by
  obtain ⟨onDisk, hexisting, rfl⟩ := renderedOn_eq_ok_iff.mp hrendered
  refine ⟨rfl, rfl, ?_, ?_⟩
  · rw [← existingOn_eq_none_iff, hexisting, GeneratedFile.isNew, Except.ok.injEq,
      Option.isNone_iff_eq_none]
  · simp only [GeneratedFile.isModified_iff, ← existingOn_eq_some_iff, hexisting, Except.ok.injEq]

theorem isUpToDate_iff {tree : FileTree} {output : Path} {group : ModuleGroup}
    {file : GeneratedFile} (hrendered : renderedOn tree output group = .ok file) :
    IsUpToDate tree output group ↔ file.isStale = false := by
  have hread : IsUpToDate tree output group ↔
      tree.readText (comparedPath output group.path) =
        .ok (TypeScript.moduleText group.items) := by
    rw [FileTree.readText_eq_ok_iff]
    refine exists_congr fun location => and_congr_right fun _ => ?_
    cases tree.look location <;> simp [Sight.contents?]
  obtain ⟨onDisk, hexisting, rfl⟩ := renderedOn_eq_ok_iff.mp hrendered
  rw [hread, ← existingOn_eq_some_iff, hexisting]
  cases onDisk <;>
    simp [GeneratedFile.isStale, GeneratedFile.isNew, GeneratedFile.isModified]

/-- What is said when so many files were created and modified. -/
def reportText (colours : Bool) (output : Path) (total created modified : Nat) : String :=
  tick colours ++ " Generated " ++ toString total ++ " file(s) in " ++ output.text ++ ": " ++
    toString created ++ " created, " ++ toString modified ++ " modified, " ++
    toString (total - created - modified) ++ " unchanged\n"

theorem writtenText_eq (colours : Bool) (output : Path) (files : List GeneratedFile) :
    writtenText colours output files = reportText colours output files.length
      (GeneratedFile.created files).length (GeneratedFile.modified files).length := by
  rw [GeneratedFile.length_created, GeneratedFile.length_modified]
  rfl

/-- The lines that list missing files, with an empty one behind them. -/
def missingLines (colours : Bool) (files : List GeneratedFile) : List String :=
  if files = [] then []
  else
    (if colours then "\x1b[33mMissing files:\x1b[0m" else "Missing files:") ::
      (files.map fun file => (if colours then "  \x1b[32m+\x1b[0m " else "  + ") ++ file.path) ++
      [""]

/-- The lines above a difference, which say what it is between. -/
def comparedLines (colours : Bool) (file : GeneratedFile) : List String :=
  if colours then
    ["\x1b[1m--- " ++ file.path ++ " (on disk)\x1b[0m",
      "\x1b[1m+++ " ++ file.path ++ " (generated)\x1b[0m"]
  else ["--- " ++ file.path ++ " (on disk)", "+++ " ++ file.path ++ " (generated)"]

/-- What a check answers, next to what a run in its place does to the tree. -/
structure DecidesStaleness (colours : Bool) (tree : FileTree) (output : Path)
    (groups : List ModuleGroup) (files : List GeneratedFile) (checked : Outcome)
    (generated : Outcome × FileTree) : Prop where
  compared : List.Forall₂ (ComparedOn tree output) groups files
  /-- The check is content when all modules are up to date. -/
  code_eq_zero_iff : checked.code = 0 ↔ ∀ group ∈ groups, IsUpToDate tree output group
  /-- It is when the run writes nothing and says so. -/
  idle_iff : checked.code = 0 ↔ writtenPaths output files = [] ∧
    generated = (.ok (reportText colours output files.length 0 0), tree)
  /-- Otherwise it fails with the number of files to create and to change. It lists those to
  create, and shows the differences of those to change, each under its path, all in order. -/
  shown : checked.code ≠ 0 → checked.code = 1 ∧
    checked.problem = toString
        ((GeneratedFile.created files).length + (GeneratedFile.modified files).length) ++
      " generated file(s) are out of date. Run `adx transliterate` to regenerate them.\n" ∧
    ∃ diffs,
      List.Forall₂ (fun file diff => file.diff? colours = some diff ∧
        ∃ body, diff = unlines (comparedLines colours file) ++ body)
        (GeneratedFile.modified files) diffs ∧
      checked.printed = unlines (missingLines colours (GeneratedFile.created files)) ++
        unlines diffs
  /-- A run that goes well creates and changes just these. -/
  written : generated.1.code = 0 →
    generated.1 = .ok (reportText colours output files.length
      (GeneratedFile.created files).length (GeneratedFile.modified files).length) ∧
    Wrote (writtenLog tree.workingDirectory output files) tree generated.2
  counted : (GeneratedFile.created files).length + (GeneratedFile.modified files).length ≤
    groups.length

theorem forall_isUpToDate_iff {tree : FileTree} {output : Path} {groups : List ModuleGroup}
    {files : List GeneratedFile} (hrendered : groups.mapM (renderedOn tree output) = .ok files) :
    (∀ group ∈ groups, IsUpToDate tree output group) ↔ files.countP (·.isStale) = 0 := by
  rw [List.countP_eq_zero]
  constructor
  · intro hgroups file hfile
    obtain ⟨group, hgroup, hfileOf⟩ := exists_of_mem_mapM hrendered hfile
    rw [(isUpToDate_iff hfileOf).mp (hgroups group hgroup)]
    exact Bool.false_ne_true
  · intro hfiles group hgroup
    obtain ⟨file, hfile, hfileOf⟩ := exists_mem_of_mapM hrendered hgroup
    exact (isUpToDate_iff hfileOf).mpr (Bool.not_eq_true _ ▸ hfiles file hfile)

theorem code_check_eq_zero_iff {colours : Bool} {files : List GeneratedFile} :
    (check colours files).code = 0 ↔ files.countP (·.isStale) = 0 := by
  unfold check
  cases files.countP (·.isStale) <;> simp [Outcome.ok, Outcome.failed]

theorem check_of_stale {colours : Bool} {files : List GeneratedFile}
    (hstale : files.countP (·.isStale) ≠ 0) :
    check colours files =
      .failed (staleText colours files) (.outOfDate (files.countP (·.isStale))) := by
  unfold check
  cases hcount : files.countP (·.isStale) with
  | zero => exact absurd hcount hstale
  | succ count => rfl

/-- The list of missing files, line by line. -/
theorem missingText_eq (colours : Bool) (files : List GeneratedFile) :
    missingText colours files = unlines (missingLines colours files) := by
  have hhead : Emphasis.yellow.apply colours "Missing files:" =
      if colours then "\x1b[33mMissing files:\x1b[0m" else "Missing files:" := by
    cases colours <;> rfl
  have hmark : "  " ++ Emphasis.green.apply colours "+" ++ " " =
      if colours then "  \x1b[32m+\x1b[0m " else "  + " := by
    cases colours <;> rfl
  unfold missingText missingLines
  by_cases hempty : files = []
  · rw [hempty]
    rfl
  · rw [if_neg (by simpa using hempty), if_neg hempty, List.cons_append, unlines_cons,
      unlines_append, hhead, hmark, unlines, List.map_map, String.append_assoc]
    rfl

/-- A difference starts with the lines that say what it is between. -/
theorem diffHeader_eq_unlines (colours : Bool) (file : GeneratedFile) :
    GeneratedFile.diffHeader colours file.path = unlines (comparedLines colours file) := by
  have hbold : ∀ text, Emphasis.bold.apply true text = "\x1b[1m" ++ text ++ "\x1b[0m" :=
    fun _ => rfl
  have hplain : ∀ text, Emphasis.bold.apply false text = text := fun _ => rfl
  unfold GeneratedFile.diffHeader comparedLines
  cases colours with
  | true =>
      have hold : "\x1b[1m--- " = "\x1b[1m" ++ "--- " := rfl
      have hnew : "\x1b[1m+++ " = "\x1b[1m" ++ "+++ " := rfl
      have hdisk : " (on disk)\x1b[0m" = " (on disk)" ++ "\x1b[0m" := rfl
      have hgenerated : " (generated)\x1b[0m" = " (generated)" ++ "\x1b[0m" := rfl
      rw [if_pos rfl, hbold, hbold, hold, hnew, hdisk, hgenerated, unlines_cons, unlines_cons]
      simp only [String.append_assoc]
      rfl
  | false =>
      rw [if_neg Bool.false_ne_true, hplain, hplain, unlines_cons, unlines_cons]
      simp only [String.append_assoc]
      rfl

theorem exists_body_of_diff? {colours : Bool} {file : GeneratedFile} {diff : String}
    (hdiff : file.diff? colours = some diff) :
    ∃ body, diff = unlines (comparedLines colours file) ++ body := by
  obtain ⟨body, hbody⟩ := GeneratedFile.exists_eq_of_diff? hdiff
  exact ⟨body, hbody.trans (congrArg (· ++ body) (diffHeader_eq_unlines colours file))⟩

theorem problem_outOfDate (printed : String) (count : Nat) :
    (Outcome.failed printed (.outOfDate count)).problem = toString count ++
      " generated file(s) are out of date. Run `adx transliterate` to regenerate them.\n" := by
  have htext : " generated file(s) are out of date. " ++
      ("Run `adx transliterate` to regenerate them." ++ "\n") =
      " generated file(s) are out of date. Run `adx transliterate` to regenerate them.\n" := rfl
  rw [← htext, ← String.append_assoc, ← String.append_assoc]
  rfl

theorem decidesStaleness {colours : Bool} {tree : FileTree} {options : Options} {output : Path}
    {groups : List ModuleGroup} {files : List GeneratedFile}
    (hplanned : planned tree options = .ok (output, groups))
    (hrendered : groups.mapM (renderedOn tree output) = .ok files) :
    DecidesStaleness colours tree output groups files (check colours files)
      ((generate (m := StateM FileTree) colours options.generating).run tree) := by
  have hprepared : preparedOn tree options.generating = .ok (output, files) := by
    have hsame : planned tree options.generating = .ok (output, groups) := hplanned
    rw [preparedOn, hsame]
    exact bind_eq_ok_iff.mpr ⟨(output, groups), rfl, bind_eq_ok_iff.mpr ⟨files, hrendered, rfl⟩⟩
  have hfailed : ∀ fault after,
      (writeFiles (m := StateM FileTree) output files).run.run tree = (.error fault, after) →
      (generate (m := StateM FileTree) colours options.generating).run tree =
        (.failed "" fault, after) := by
    intro fault after hwritten
    rw [run_generate FileTree.holdsTree, hprepared]
    simp only [Options.generating, Bool.false_eq_true, if_false, hwritten]
  have hgenerated : ∀ after,
      (writeFiles (m := StateM FileTree) output files).run.run tree = (.ok (), after) →
      (generate (m := StateM FileTree) colours options.generating).run tree =
        (.ok (writtenText colours output files), after) := by
    intro after hwritten
    rw [run_generate FileTree.holdsTree, hprepared]
    simp only [Options.generating, Bool.false_eq_true, if_false, hwritten]
  refine ⟨?_, ?_, ?_, ?_, ?_, ?_⟩
  · exact (mapM_eq_ok_iff.mp hrendered).imp fun _ _ => comparedOn_of_renderedOn
  · rw [code_check_eq_zero_iff, forall_isUpToDate_iff hrendered]
  · rw [code_check_eq_zero_iff]
    constructor
    · intro hcount
      have hnone : files.filter (·.isStale) = [] := by
        simpa [List.countP_eq_zero, List.filter_eq_nil_iff] using hcount
      have hidle : (writeFiles (m := StateM FileTree) output files).run.run tree =
          (.ok (), tree) := by
        rw [writeFiles, hnone]
        rfl
      rw [GeneratedFile.countP_isStale] at hcount
      obtain ⟨hcreated, hmodified⟩ := Nat.add_eq_zero_iff.mp hcount
      rw [writtenPaths, hnone, hgenerated tree hidle, writtenText_eq, hcreated, hmodified]
      exact ⟨rfl, rfl⟩
    · rintro ⟨hpaths, -⟩
      rw [List.countP_eq_length_filter, List.map_eq_nil_iff.mp hpaths]
      rfl
  · intro hcode
    rw [ne_eq, code_check_eq_zero_iff] at hcode
    rw [check_of_stale hcode, GeneratedFile.countP_isStale]
    refine ⟨rfl, ?_, files.filterMap (·.diff? colours), ?_, ?_⟩
    · exact problem_outOfDate _ _
    · exact (GeneratedFile.forall₂_diff? colours files).imp fun _ _ hdiff =>
        ⟨hdiff, exists_body_of_diff? hdiff⟩
    · rw [← missingText_eq]
      rfl
  · intro hcode
    cases hwritten : (writeFiles (m := StateM FileTree) output files).run.run tree with
    | mk result after =>
        cases result with
        | error fault =>
            rw [hfailed fault after hwritten] at hcode
            cases hcode
        | ok _ =>
            rw [hgenerated after hwritten, writtenText_eq]
            exact ⟨rfl, (wrote_of_writeFiles hwritten).1⟩
  · rw [(mapM_eq_ok_iff.mp hrendered).length_eq]
    exact GeneratedFile.length_created_add_modified_le files

theorem run_check (colours : Bool) {options : Options} (hcheck : options.isCheck = true)
    (tree : FileTree) : (generate (m := StateM FileTree) colours options).run tree =
      match preparedOn tree options with
      | .error fault => (.failed "" fault, tree)
      | .ok (_, files) => (check colours files, tree) := by
  rw [run_generate FileTree.holdsTree, hcheck]
  cases preparedOn tree options <;> rfl

/-- With `--check` among its arguments the command leaves the tree as it is, however it ends. Where
the configuration, the plan and the files can be read, it tells what is to be done about them. -/
theorem check_decides_staleness {colours : Bool} {arguments : List String} {tree : FileTree}
    (hcheck : "--check" ∈ arguments) :
    ((run (m := StateM FileTree) colours ("transliterate" :: arguments)).run tree).2 = tree ∧
    ∀ options output groups files,
      Request.ofArguments ("transliterate" :: arguments) = .ok (.generate options) →
      planned tree options = .ok (output, groups) →
      groups.mapM (renderedOn tree output) = .ok files →
      DecidesStaleness colours tree output groups files
        ((run (m := StateM FileTree) colours ("transliterate" :: arguments)).run tree).1
        ((run (m := StateM FileTree) colours
          ("transliterate" :: arguments.erase "--check")).run tree) := by
  constructor
  · cases hrequest : Request.ofArguments ("transliterate" :: arguments) with
    | error fault => rw [run, hrequest]; rfl
    | ok request =>
        cases request with
        | overview | help | version => rw [run, hrequest]; rfl
        | generate options =>
            rw [run_eq_generate hrequest,
              run_check colours (ofArguments_erase_check hrequest hcheck).1]
            cases preparedOn tree options <;> rfl
  · intro options output groups files hrequest hplanned hrendered
    obtain ⟨hchecks, hwithout⟩ := ofArguments_erase_check hrequest hcheck
    have hprepared : preparedOn tree options = .ok (output, files) :=
      bind_eq_ok_iff.mpr ⟨(output, groups), hplanned, bind_eq_ok_iff.mpr ⟨files, hrendered, rfl⟩⟩
    rw [run_eq_generate hrequest, run_eq_generate hwithout, run_check colours hchecks, hprepared]
    exact decidesStaleness hplanned hrendered

/-- A tree with a plan of one screen, an outdated module of all tracks, and one module that is
up to date. -/
def driftedTree : FileTree where
  root := .directory [
    ("p.yaml", .file (.text "screens:\n  Home: \x7b\x7d\n")),
    ("o", .directory [
      ("tracks.ts", .file (.text "// none\n")),
      ("shared-traits.ts",
        .file (.text "import * as shared from \"./shared-definitions\";\n"))])]
  workingDirectory := []

def driftedArguments : List String := ["-i", "p.yaml", "--check", "-o", "o"]

/-- What is printed about the drifted tree: two missing files, and a line that is another one. -/
def driftedText : String :=
  "Missing files:\n  + shared-definitions.ts\n  + screens/Home.ts\n\n" ++
    "--- tracks.ts (on disk)\n+++ tracks.ts (generated)\n" ++
    "-// none\n+import * as shared from \"./shared-definitions\";\n\n"

theorem drifted_decides_staleness : ∃ options output groups files,
    "--check" ∈ driftedArguments ∧
    Request.ofArguments ("transliterate" :: driftedArguments) = .ok (.generate options) ∧
    planned driftedTree options = .ok (output, groups) ∧
    groups.mapM (renderedOn driftedTree output) = .ok files ∧
    (GeneratedFile.created files).map (·.path) = ["shared-definitions.ts", "screens/Home.ts"] ∧
    (GeneratedFile.modified files).map (·.path) = ["tracks.ts"] ∧
    ((run (m := StateM FileTree) false ("transliterate" :: driftedArguments)).run
      driftedTree).1 = .failed driftedText (.outOfDate 3) ∧
    ((run (m := StateM FileTree) false ("transliterate" :: driftedArguments)).run
      driftedTree).2 = driftedTree ∧
    DecidesStaleness false driftedTree output groups files
      ((run (m := StateM FileTree) false ("transliterate" :: driftedArguments)).run
        driftedTree).1
      ((run (m := StateM FileTree) false
        ("transliterate" :: driftedArguments.erase "--check")).run driftedTree) := by
  have hcheck : "--check" ∈ driftedArguments := by decide
  have hrequest : Request.ofArguments ("transliterate" :: driftedArguments) =
      .ok (.generate screenOptions.checked) := by decide +kernel
  have hpaths : (preparedOn driftedTree screenOptions.checked).map (fun prepared =>
      ((GeneratedFile.created prepared.2).map (·.path),
        (GeneratedFile.modified prepared.2).map (·.path))) =
      .ok (["shared-definitions.ts", "screens/Home.ts"], ["tracks.ts"]) := by decide +kernel
  have hprinted : ((run (m := StateM FileTree) false ("transliterate" :: driftedArguments)).run
      driftedTree).1 = .failed driftedText (.outOfDate 3) := by decide +kernel
  cases hprepared : preparedOn driftedTree screenOptions.checked with
  | error fault =>
      rw [hprepared] at hpaths
      cases hpaths
  | ok prepared =>
      rw [hprepared] at hpaths
      obtain ⟨hcreated, hmodified⟩ := Prod.mk.inj (Except.ok.inj hpaths)
      obtain ⟨⟨output, groups⟩, hplanned, hprepared⟩ := bind_eq_ok_iff.mp hprepared
      obtain ⟨files, hrendered, hpair⟩ := bind_eq_ok_iff.mp hprepared
      obtain rfl := Except.ok.inj hpair
      obtain ⟨hsame, hdecides⟩ := @check_decides_staleness false _ driftedTree hcheck
      exact ⟨_, output, groups, files, hcheck, hrequest, hplanned, hrendered, hcreated, hmodified,
        hprinted, hsame, hdecides _ output groups files hrequest hplanned hrendered⟩

end TrackingPlan.Command
