import TrackingPlan.Proofs.Command.Writing

/-!
# Runs that fail

Nothing is undone when a run fails. Up to the first file that is written there
is nothing to undo, so that whatever is wrong with the arguments, the
configuration or the plan leaves no trace. When a directory cannot be made or a
file not be written, the files before it have been written and stay. The file
that could not be written may have lost its contents; all others have theirs.
-/

namespace TrackingPlan.Command

open FileTree (WroteAlong lastWritten)

/-- The fault of a file that cannot be written, or of its directory. -/
inductive WritingFault (target : Path) : RunFault → Prop where
  | noDirectory {parent : Path} (hparent : target.parent? = some parent) (reason : DiskFault) :
      WritingFault target (.noDirectory parent reason)
  | unwritable (reason : DiskFault) : WritingFault target (.unwritable target reason)

/-- What a file may have become that could not be written: the same, or anything
at all if the writing went wrong and not its directory. -/
def Spoils (target : Path) (fault : RunFault) (before after : FileTree) : Prop :=
  after = before ∨ (∃ reason, fault = .unwritable target reason) ∧
    ∃ left, before.write target left = .ok after

/-- What a run leaves that fails in writing a file: the stale files before it are
where their paths lead, besides there are only new directories on the way to
these files and to the one that failed, and no file but these has changed. -/
structure LeftBehind (output : Path) (earlier : List GeneratedFile) (failing : GeneratedFile)
    (fault : RunFault) (before after : FileTree) : Prop where
  located : ∀ file ∈ earlier, file.isStale = true → ∃ location,
    after.locate (writtenPath output file) = .ok location
  workingDirectory_eq : after.workingDirectory = before.workingDirectory
  directory_stays : ∀ location, before.look location = .directory →
    after.look location = .directory
  directory_new : ∀ location, after.look location = .directory →
    before.look location = .directory ∨
      ∃ path ∈ writtenPaths output earlier ++ [writtenPath output failing],
        ∃ front : Path, front.IsFront path ∧
          front.resolve? before.workingDirectory = some location
  contents_eq : ∀ location, (after.look location).contents? =
      ((lastWritten (writtenLog before.workingDirectory output earlier) location).map
        Contents.text).or (before.look location).contents? ∨
    -- The file that failed may hold anything, if it was opened.
    (∃ reason, fault = .unwritable (writtenPath output failing) reason) ∧
      target? before.workingDirectory output failing = some location

/-- The run was to generate and everything was prepared, but then one of the files
could not be written. -/
def FailsInWriting (arguments : List String) (outcome : Outcome) (before after : FileTree) : Prop :=
  ∃ options output earlier failing later fault,
    Request.ofArguments arguments = .ok (.generate options) ∧ options.isCheck = false ∧
    preparedOn before options = .ok (output, earlier ++ failing :: later) ∧
    failing.isStale = true ∧ WritingFault (writtenPath output failing) fault ∧
    outcome = .failed "" fault ∧ LeftBehind output earlier failing fault before after

theorem leftBehind_of_spoils {output : Path} {earlier : List GeneratedFile}
    {failing : GeneratedFile} {fault : RunFault} {before middle after : FileTree}
    (hlocated : ∀ file ∈ earlier, file.isStale = true → ∃ location,
      middle.locate (writtenPath output file) = .ok location)
    (hwrote : WroteAlong (writtenPaths output earlier ++ [writtenPath output failing])
      (writtenLog before.workingDirectory output earlier) before middle)
    (hspoils : Spoils (writtenPath output failing) fault middle after) :
    LeftBehind output earlier failing fault before after := by
  rcases hspoils with rfl | ⟨hfault, left, hwrite⟩
  · exact ⟨hlocated, hwrote.workingDirectory_eq, hwrote.directory_stays, hwrote.directory_new,
      fun location => .inl (hwrote.contents_eq location)⟩
  · obtain ⟨spoiled, hlocate, -, hdirectory, hafter⟩ := FileTree.look_of_write hwrite
    have hsame := FileTree.look_eq_directory_iff_of_write hwrite
    refine ⟨fun file hfile hstale => ?_, hdirectory.trans hwrote.workingDirectory_eq,
      fun location hbefore => (hsame location).mpr (hwrote.directory_stays location hbefore),
      fun location hnew => hwrote.directory_new location ((hsame location).mp hnew),
      fun location => ?_⟩
    · obtain ⟨location, hfound⟩ := hlocated file hfile hstale
      exact ⟨location, FileTree.locate_eq_ok_of_directory_stays
        (fun location => (hsame location).mpr) hdirectory hfound⟩
    · by_cases hspoiled : location = spoiled
      · have htarget := FileTree.resolve?_of_locate hlocate
        rw [hwrote.workingDirectory_eq] at htarget
        exact .inr ⟨hfault, hspoiled ▸ htarget⟩
      · rw [hafter, if_neg hspoiled]
        exact .inl (hwrote.contents_eq location)

section Disk

variable {σ : Type} [Disk (StateM σ)]

/-- Writing stops at a file that cannot be written, behind files that could be. -/
theorem exists_of_writeFiles_error {output : Path} {files : List GeneratedFile} {fault : RunFault}
    {state after : σ}
    (hrun : (writeFiles (m := StateM σ) output files).run.run state = (.error fault, after)) :
    ∃ earlier file later middle, files = earlier ++ file :: later ∧ file.isStale = true ∧
      (writeFiles (m := StateM σ) output earlier).run.run state = (.ok (), middle) ∧
      (writeFile (m := StateM σ) output file).run.run middle = (.error fault, after) := by
  induction files generalizing state with
  | nil => cases hrun
  | cons file rest ih =>
      by_cases hstale : file.isStale = true
      · rw [writeFiles_cons_of_stale hstale, run_bind] at hrun
        cases hfirst : (writeFile (m := StateM σ) output file).run.run state with
        | mk result middle =>
            rw [hfirst] at hrun
            cases result with
            | error reason => exact ⟨[], file, rest, state, rfl, hstale, rfl, hfirst.trans hrun⟩
            | ok _ =>
                obtain ⟨earlier, failing, later, reached, rfl, hfailing, hearlier, hrun⟩ := ih hrun
                refine ⟨file :: earlier, failing, later, reached, rfl, hfailing, ?_, hrun⟩
                rw [writeFiles_cons_of_stale hstale, run_bind, hfirst]
                exact hearlier
      · rw [writeFiles_cons_of_not_stale hstale] at hrun
        obtain ⟨earlier, failing, later, reached, rfl, hfailing, hearlier, hrun⟩ := ih hrun
        refine ⟨file :: earlier, failing, later, reached, rfl, hfailing, ?_, hrun⟩
        rw [writeFiles_cons_of_not_stale hstale]
        exact hearlier

variable {treeOf : σ → FileTree} (hholds : Disk.HoldsTree treeOf)

include hholds

theorem writeText_error {path : Path} {text : String} {fault : RunFault} {state after : σ}
    (hrun : (orFail (m := StateM σ) (.unwritable path)
      (Disk.writeText path text)).run.run state = (.error fault, after)) :
    WritingFault path fault ∧ Spoils path fault (treeOf state) (treeOf after) := by
  have hwrite := hholds.writeText path text state
  rw [run_orFail] at hrun
  generalize (Disk.writeText path text : StateM σ (Except DiskFault Unit)).run state = written at *
  obtain ⟨result, reached⟩ := written
  cases result with
  | ok _ => cases hrun
  | error reason =>
      obtain ⟨hfault, rfl⟩ := Prod.mk.inj hrun
      obtain rfl := Except.error.inj hfault
      exact ⟨.unwritable reason, hwrite.imp_right fun hleft => ⟨⟨reason, rfl⟩, hleft⟩⟩

/-- A failed attempt to write a file leaves directories on the way to it, and
has done nothing more than to spoil the file. -/
theorem writeFile_error {output : Path} {file : GeneratedFile} {fault : RunFault}
    {state after : σ}
    (hrun : (writeFile (m := StateM σ) output file).run.run state = (.error fault, after)) :
    WritingFault (writtenPath output file) fault ∧ ∃ middle,
      WroteAlong [writtenPath output file] [] (treeOf state) middle ∧
      Spoils (writtenPath output file) fault middle (treeOf after) := by
  rcases writeFile_cases hholds hrun with
    ⟨parent, reason, hparent, hfault, hmade⟩ | ⟨middle, hmade, hwritten⟩
  · obtain rfl := Except.error.inj hfault
    exact ⟨.noDirectory hparent reason, _, hmade, .inl rfl⟩
  · obtain ⟨hfault, hspoils⟩ := writeText_error hholds hwritten
    exact ⟨hfault, _, hmade, hspoils⟩

theorem leftBehind_of_writeFiles_error {output : Path} {files : List GeneratedFile}
    {fault : RunFault} {state after : σ}
    (hrun : (writeFiles (m := StateM σ) output files).run.run state = (.error fault, after)) :
    ∃ earlier failing later, files = earlier ++ failing :: later ∧ failing.isStale = true ∧
      WritingFault (writtenPath output failing) fault ∧
      LeftBehind output earlier failing fault (treeOf state) (treeOf after) := by
  obtain ⟨earlier, failing, later, middle, hfiles, hstale, hearlier, hfailing⟩ :=
    exists_of_writeFiles_error hrun
  obtain ⟨hwrote, hlocated⟩ := wroteAlong_of_writeFiles hholds hearlier
  obtain ⟨hfault, reached, hmade, hspoils⟩ := writeFile_error hholds hfailing
  have htrans := hwrote.trans hmade
  rw [List.append_nil] at htrans
  refine ⟨earlier, failing, later, hfiles, hstale, hfault,
    leftBehind_of_spoils (fun file hfile hstale => ?_) htrans hspoils⟩
  obtain ⟨location, hlocate⟩ := hlocated file hfile hstale
  exact ⟨location, hmade.locate_eq_ok hlocate⟩

/-- Generating fails before it writes anything, or in writing. -/
theorem unchanged_or_writing_of_generate {colours : Bool} {options : Options}
    {state after : σ} {outcome : Outcome}
    (hrun : (generate (m := StateM σ) colours options).run state = (outcome, after))
    (hcode : outcome.code ≠ 0) :
    after = state ∨ options.isCheck = false ∧ ∃ output files fault,
      preparedOn (treeOf state) options = .ok (output, files) ∧
      (writeFiles (m := StateM σ) output files).run.run state = (.error fault, after) ∧
      outcome = .failed "" fault := by
  rw [run_generate hholds] at hrun
  cases hprepared : preparedOn (treeOf state) options with
  | error fault =>
      rw [hprepared] at hrun
      exact .inl (Prod.mk.inj hrun).2.symm
  | ok prepared =>
      obtain ⟨output, files⟩ := prepared
      rw [hprepared] at hrun
      cases hcheck : options.isCheck with
      | true =>
          rw [hcheck] at hrun
          exact .inl (Prod.mk.inj hrun).2.symm
      | false =>
          simp only [hcheck, Bool.false_eq_true, if_false] at hrun
          cases hwritten : (writeFiles (m := StateM σ) output files).run.run state with
          | mk result reached =>
              rw [hwritten] at hrun
              cases result with
              | ok _ =>
                  obtain rfl := (Prod.mk.inj hrun).1
                  exact absurd rfl hcode
              | error fault =>
                  obtain ⟨rfl, rfl⟩ := Prod.mk.inj hrun
                  exact .inr ⟨rfl, output, files, fault, rfl, hwritten, rfl⟩

/-- Whichever changes of the disk go wrong, a run that fails leaves everything as
it was, unless it fails in writing a file. -/
theorem failing_run {colours : Bool} {arguments : List String} {state after : σ}
    {outcome : Outcome}
    (hrun : (run (m := StateM σ) colours arguments).run state = (outcome, after))
    (hcode : outcome.code ≠ 0) :
    after = state ∨ FailsInWriting arguments outcome (treeOf state) (treeOf after) := by
  cases hrequest : Request.ofArguments arguments with
  | error fault =>
      rw [run, hrequest] at hrun
      exact .inl (Prod.mk.inj hrun).2.symm
  | ok request =>
      rw [run, hrequest] at hrun
      cases request with
      | overview | help | version => exact .inl (Prod.mk.inj hrun).2.symm
      | generate options =>
          rcases unchanged_or_writing_of_generate hholds hrun hcode with
            hsame | ⟨hcheck, output, files, fault, hprepared, hwritten, rfl⟩
          · exact .inl hsame
          · obtain ⟨earlier, failing, later, rfl, hstale, hfault, hleft⟩ :=
              leftBehind_of_writeFiles_error hholds hwritten
            exact .inr ⟨options, output, earlier, failing, later, fault, hrequest, hcheck,
              hprepared, hstale, hfault, rfl, hleft⟩

end Disk

/-- A tree with a plan of one screen, in which a file has the name of the
directory of all screens. -/
def blockedTree : FileTree where
  root := .directory [
    ("p.yaml", .file (.text "screens:\n  Home: \x7b\x7d\n")),
    ("o", .directory [("screens", .file (.text ""))])]
  workingDirectory := []

def blockedArguments : List String := ["transliterate", "-i", "p.yaml", "-o", "o"]

/-- The names of all features and screens are written before the screens. -/
theorem blocked_outcome :
    ((run (m := StateM FileTree) false blockedArguments).run blockedTree).1 =
      .failed "" (.noDirectory ⟨"o/screens"⟩ .alreadyExists) ∧
    ((run (m := StateM FileTree) false blockedArguments).run blockedTree).2.isFile
      ⟨"o/shared-definitions.ts"⟩ = true := by decide +kernel

theorem blocked_written :
    ((run (m := StateM FileTree) false blockedArguments).run blockedTree).2 ≠ blockedTree := by
  intro heq
  have hwritten := blocked_outcome.2
  rw [heq] at hwritten
  exact absurd hwritten (by decide +kernel)

def noSpace : DiskFault := .other "No space left on device (os error 28)"

/-- A disk with the same plan and an old module of its screen, which is full when
this is opened: the directory of the output is there, the names are written, the
directory of the screens is there, and nothing more fits. -/
def fullDisk : UnreliableTree where
  tree := {
    root := .directory [
      ("p.yaml", .file (.text "screens:\n  Home: \x7b\x7d\n")),
      ("o", .directory [("screens", .directory [("Home.ts", .file (.text "// old\n"))])])]
    workingDirectory := [] }
  mishaps := [none, none, none, some ⟨noSpace, some (.text "")⟩]

/-- The old module is lost. -/
theorem full_outcome :
    ((run (m := StateM UnreliableTree) false blockedArguments).run fullDisk).1 =
      .failed "" (.unwritable ⟨"o/screens/Home.ts"⟩ noSpace) ∧
    ((run (m := StateM UnreliableTree) false blockedArguments).run fullDisk).2.tree.readText
      ⟨"o/screens/Home.ts"⟩ = .ok "" := by decide +kernel

theorem full_written :
    ((run (m := StateM UnreliableTree) false blockedArguments).run fullDisk).2 ≠ fullDisk := by
  intro heq
  have hlost := full_outcome.2
  rw [heq] at hlost
  exact absurd hlost (by decide +kernel)

theorem blocked_and_full_left_behind :
    (∃ outcome after,
      (run (m := StateM FileTree) false blockedArguments).run blockedTree = (outcome, after) ∧
      outcome.code ≠ 0 ∧ FailsInWriting blockedArguments outcome blockedTree after) ∧
    ∃ outcome after,
      (run (m := StateM UnreliableTree) false blockedArguments).run fullDisk = (outcome, after) ∧
      outcome.code ≠ 0 ∧ FailsInWriting blockedArguments outcome fullDisk.tree after.tree := by
  have hblocked :
      ((run (m := StateM FileTree) false blockedArguments).run blockedTree).1.code ≠ 0 := by
    rw [blocked_outcome.1]
    decide
  have hfull :
      ((run (m := StateM UnreliableTree) false blockedArguments).run fullDisk).1.code ≠ 0 := by
    rw [full_outcome.1]
    decide
  refine ⟨⟨_, _, (Prod.eta _).symm, hblocked, ?_⟩, ⟨_, _, (Prod.eta _).symm, hfull, ?_⟩⟩
  · exact (failing_run FileTree.holdsTree (Prod.eta _).symm hblocked).resolve_left blocked_written
  · exact (failing_run UnreliableTree.holdsTree (Prod.eta _).symm hfull).resolve_left full_written

/-- A run that fails has left a file behind. -/
theorem blocked_leaves_trace : ∃ after,
    (run (m := StateM FileTree) false blockedArguments).run blockedTree =
      (.failed "" (.noDirectory ⟨"o/screens"⟩ .alreadyExists), after) ∧
    (Outcome.failed "" (.noDirectory ⟨"o/screens"⟩ .alreadyExists)).code ≠ 0 ∧
    after.isFile ⟨"o/shared-definitions.ts"⟩ = true ∧ after ≠ blockedTree :=
  ⟨_, Prod.ext blocked_outcome.1 rfl, by decide, blocked_outcome.2, blocked_written⟩

end TrackingPlan.Command
