import TrackingPlan.Proofs.Command.Preparation
import TrackingPlan.Proofs.Disk.Directories

/-!
# What a run writes

Files that are not up to date are written one after the other, each to where
its path leads by names alone. A run that is through has written all of them.
-/

namespace TrackingPlan.Command

open FileTree (Wrote WroteAlong MakesAlong)

/-- The location of a file, by the names of its path. -/
def target? (workingDirectory : List String) (output : Path) (file : GeneratedFile) :
    Option (List String) :=
  (writtenPath output file).resolve? workingDirectory

/-- What a run writes, and where, in order. -/
def writtenLog (workingDirectory : List String) (output : Path) (files : List GeneratedFile) :
    List (List String × String) :=
  (files.filter (·.isStale)).filterMap fun file =>
    (target? workingDirectory output file).map (·, file.text)

theorem mem_writtenLog_iff {workingDirectory : List String} {output : Path}
    {files : List GeneratedFile} {written : List String × String} :
    written ∈ writtenLog workingDirectory output files ↔ ∃ file ∈ files, file.isStale = true ∧
      target? workingDirectory output file = some written.1 ∧ file.text = written.2 := by
  obtain ⟨location, text⟩ := written
  simp only [writtenLog, List.mem_filterMap, List.mem_filter, Option.map_eq_some_iff,
    Prod.mk.injEq]
  constructor
  · rintro ⟨file, ⟨hfile, hstale⟩, _, htarget, rfl, rfl⟩
    exact ⟨file, hfile, hstale, htarget, rfl⟩
  · rintro ⟨file, hfile, hstale, htarget, rfl⟩
    exact ⟨file, ⟨hfile, hstale⟩, location, htarget, rfl, rfl⟩

/-- A file of a module stays one, wherever its path leads. -/
theorem exists_target_eq {workingDirectory location : List String} {output : Path}
    {file : GeneratedFile} (stem : String) (hpath : file.path = stem ++ ".ts")
    (htarget : target? workingDirectory output file = some location) :
    ∃ directory last, location = directory ++ [last ++ ".ts"] := by
  obtain ⟨before, last, hnames⟩ :=
    Path.exists_names_append stem ".ts" (by decide) (by decide)
  have hlast : last ++ ".ts" ≠ ".." := by
    intro heq
    have hend := congrArg (·.toList.getLast?) heq
    simp at hend
  obtain ⟨directory, hwritten⟩ :
      ∃ directory, (writtenPath output file).names = directory ++ [last ++ ".ts"] := by
    rw [writtenPath, hpath, Path.names_join, hnames]
    split
    · exact ⟨before, rfl⟩
    · exact ⟨output.names ++ before, (List.append_assoc _ _ _).symm⟩
  rw [target?, Path.resolve?, hwritten, Path.follow_append, Path.follow_singleton _ hlast] at htarget
  split at htarget
  next => cases htarget
  next => exact ⟨_, last, (Option.some.inj htarget).symm⟩

section Disk

variable {σ : Type} [Disk (StateM σ)] {treeOf : σ → FileTree} (hholds : Disk.HoldsTree treeOf)

include hholds

theorem wroteAlong_of_writeText {path : Path} {text : String} {state after : σ}
    (hrun : (orFail (m := StateM σ) (.unwritable path)
      (Disk.writeText path text)).run.run state = (.ok (), after)) :
    ∃ location, (treeOf after).locate path = .ok location ∧
      WroteAlong [] [(location, text)] (treeOf state) (treeOf after) := by
  have hwrite := hholds.writeText path text state
  rw [run_orFail] at hrun
  generalize (Disk.writeText path text : StateM σ (Except DiskFault Unit)).run state = written at *
  obtain ⟨result, reached⟩ := written
  cases result with
  | error reason => cases hrun
  | ok _ =>
      obtain rfl := (Prod.mk.inj hrun).2
      obtain ⟨location, hlocate, hwrote⟩ := FileTree.write_wroteAlong hwrite
      exact ⟨location, hwrote.locate_eq_ok hlocate, hwrote⟩

/-- Writing a file makes directories on the way to it. If that goes well, what becomes of
the file itself decides. -/
theorem writeFile_cases {output : Path} {file : GeneratedFile} {result : Except RunFault Unit}
    {state after : σ}
    (hrun : (writeFile (m := StateM σ) output file).run.run state = (result, after)) :
    (∃ parent reason, (writtenPath output file).parent? = some parent ∧
      result = .error (.noDirectory parent reason) ∧
      WroteAlong [writtenPath output file] [] (treeOf state) (treeOf after)) ∨
    ∃ middle, WroteAlong [writtenPath output file] [] (treeOf state) (treeOf middle) ∧
      (orFail (m := StateM σ) (.unwritable (writtenPath output file))
        (Disk.writeText (writtenPath output file) file.text)).run.run middle = (result, after) := by
  unfold writeFile at hrun
  dsimp only at hrun
  split at hrun
  next parent hparent =>
    have hmade := (MakesAlong.makeDirectories hholds parent).of_front (.single hparent) state
    rw [run_bind, run_orFail] at hrun
    generalize (Disk.makeDirectories parent : StateM σ _).run state = made at hrun hmade
    obtain ⟨made | _, middle⟩ := made
    · obtain ⟨rfl, rfl⟩ := Prod.mk.inj hrun
      exact .inl ⟨parent, made, hparent, rfl, hmade⟩
    · exact .inr ⟨middle, hmade, hrun⟩
  next => exact .inr ⟨state, MakesAlong.pure treeOf _ () state, hrun⟩

/-- A file that is written is where its path leads, and no other has changed. -/
theorem wroteAlong_of_writeFile {output : Path} {file : GeneratedFile} {state after : σ}
    (hrun : (writeFile (m := StateM σ) output file).run.run state = (.ok (), after)) :
    ∃ location, (treeOf after).locate (writtenPath output file) = .ok location ∧
      WroteAlong [writtenPath output file] [(location, file.text)] (treeOf state)
        (treeOf after) := by
  rcases writeFile_cases hholds hrun with ⟨_, _, -, hfault, -⟩ | ⟨middle, hmade, hwritten⟩
  · cases hfault
  · obtain ⟨location, hlocate, hwrote⟩ := wroteAlong_of_writeText hholds hwritten
    exact ⟨location, hlocate, hmade.trans hwrote⟩

end Disk

theorem writtenLog_cons_of_stale {workingDirectory location : List String} {output : Path}
    {file : GeneratedFile} (hstale : file.isStale = true)
    (htarget : target? workingDirectory output file = some location) (rest : List GeneratedFile) :
    writtenLog workingDirectory output (file :: rest) =
      (location, file.text) :: writtenLog workingDirectory output rest := by
  simp [writtenLog, hstale, htarget]

theorem writtenLog_cons_of_not_stale {file : GeneratedFile} (hstale : ¬ file.isStale = true)
    (workingDirectory : List String) (output : Path) (rest : List GeneratedFile) :
    writtenLog workingDirectory output (file :: rest) =
      writtenLog workingDirectory output rest := by
  simp [writtenLog, hstale]

/-- The paths of the files that are written. -/
def writtenPaths (output : Path) (files : List GeneratedFile) : List Path :=
  (files.filter (·.isStale)).map (writtenPath output)

section Disk

variable {σ : Type} [Disk (StateM σ)]

theorem writeFiles_cons_of_stale {file : GeneratedFile} (hstale : file.isStale = true)
    (output : Path) (rest : List GeneratedFile) :
    writeFiles (m := StateM σ) output (file :: rest) =
      writeFile output file >>= fun _ => writeFiles output rest := by
  simp [writeFiles, hstale]

theorem writeFiles_cons_of_not_stale {file : GeneratedFile} (hstale : ¬ file.isStale = true)
    (output : Path) (rest : List GeneratedFile) :
    writeFiles (m := StateM σ) output (file :: rest) = writeFiles output rest := by
  simp [writeFiles, hstale]

variable {treeOf : σ → FileTree} (hholds : Disk.HoldsTree treeOf)

include hholds

/-- A run that is through has written every file that was not up to date, and
made the directories for them. -/
theorem wroteAlong_of_writeFiles {output : Path} {files : List GeneratedFile} {state after : σ}
    (hrun : (writeFiles (m := StateM σ) output files).run.run state = (.ok (), after)) :
    WroteAlong (writtenPaths output files)
      (writtenLog (treeOf state).workingDirectory output files) (treeOf state) (treeOf after) ∧
      ∀ file ∈ files, file.isStale → ∃ location,
        (treeOf after).locate (writtenPath output file) = .ok location := by
  induction files generalizing state with
  | nil =>
      obtain rfl := (Prod.mk.inj hrun).2
      exact ⟨WroteAlong.refl _, by simp⟩
  | cons file rest ih =>
      by_cases hstale : file.isStale = true
      · rw [writeFiles_cons_of_stale hstale, run_bind] at hrun
        cases hfirst : (writeFile (m := StateM σ) output file).run.run state with
        | mk result middle =>
            rw [hfirst] at hrun
            cases result with
            | error fault => cases hrun
            | ok _ =>
                obtain ⟨location, hlocate, hwrote⟩ := wroteAlong_of_writeFile hholds hfirst
                obtain ⟨hrest, hlocated⟩ := ih hrun
                have htarget := FileTree.resolve?_of_locate hlocate
                rw [hwrote.workingDirectory_eq] at htarget hrest
                rw [writtenLog_cons_of_stale hstale htarget, writtenPaths,
                  List.filter_cons_of_pos hstale, List.map_cons]
                refine ⟨hwrote.trans hrest, ?_⟩
                intro other hother
                rcases List.mem_cons.mp hother with rfl | hother
                · exact fun _ => ⟨location, hrest.locate_eq_ok hlocate⟩
                · exact hlocated other hother
      · rw [writeFiles_cons_of_not_stale hstale] at hrun
        obtain ⟨hrest, hlocated⟩ := ih hrun
        rw [writtenLog_cons_of_not_stale hstale, writtenPaths, List.filter_cons_of_neg hstale]
        refine ⟨hrest, ?_⟩
        intro other hother
        rcases List.mem_cons.mp hother with rfl | hother
        · exact fun h => absurd h hstale
        · exact hlocated other hother

/-- A run from one state of the disk to the next. -/
theorem run_generate (colours : Bool) (options : Options) (state : σ) :
    (generate (m := StateM σ) colours options).run state =
      match preparedOn (treeOf state) options with
      | .error fault => (.failed "" fault, state)
      | .ok (output, files) =>
        if options.isCheck then (check colours files, state)
        else
          match (writeFiles (m := StateM σ) output files).run.run state with
          | (.error fault, after) => (.failed "" fault, after)
          | (.ok (), after) => (.ok (writtenText colours output files), after) := by
  have hprepare : (prepare (m := StateM σ) options).run.run state =
      (preparedOn (treeOf state) options, state) := reads_prepare hholds options state
  unfold generate
  rw [StateT.run_bind, hprepare]
  cases preparedOn (treeOf state) options with
  | error fault => rfl
  | ok prepared =>
      obtain ⟨output, files⟩ := prepared
      cases hcheck : options.isCheck with
      | true => rfl
      | false =>
          change StateT.run ((writeFiles (m := StateM σ) output files).run >>= _) state = _
          rw [StateT.run_bind]
          dsimp only [Bool.false_eq_true, if_false]
          generalize (writeFiles (m := StateM σ) output files).run.run state = written
          obtain ⟨result | _, after⟩ := written <;> rfl

end Disk

section Tree

variable {output : Path} {files : List GeneratedFile} {tree after : FileTree}

theorem wrote_of_writeFiles
    (hrun : (writeFiles (m := StateM FileTree) output files).run.run tree = (.ok (), after)) :
    Wrote (writtenLog tree.workingDirectory output files) tree after ∧
      ∀ file ∈ files, file.isStale → ∃ location,
        after.locate (writtenPath output file) = .ok location :=
  have hwrote := wroteAlong_of_writeFiles FileTree.holdsTree hrun
  ⟨hwrote.1.toWrote, hwrote.2⟩

/-- A run that went well has planned, rendered and written its files. -/
theorem written_of_generate {colours : Bool} {options : Options} {outcome : Outcome}
    (hgenerates : options.isCheck = false)
    (hrun : (generate (m := StateM FileTree) colours options).run tree = (outcome, after))
    (hcode : outcome.code = 0) :
    ∃ output groups files, planned tree options = .ok (output, groups) ∧
      groups.mapM (renderedOn tree output) = .ok files ∧
      (writeFiles (m := StateM FileTree) output files).run.run tree = (.ok (), after) := by
  rw [run_generate FileTree.holdsTree] at hrun
  cases hprepared : preparedOn tree options with
  | error fault =>
      rw [hprepared] at hrun
      obtain rfl := (Prod.mk.inj hrun).1
      cases hcode
  | ok prepared =>
      obtain ⟨⟨output, groups⟩, hplanned, hrest⟩ := bind_eq_ok_iff.mp hprepared
      obtain ⟨files, hrendered, hpair⟩ := bind_eq_ok_iff.mp hrest
      obtain rfl := Except.ok.inj hpair
      rw [hprepared, hgenerates] at hrun
      refine ⟨output, groups, files, hplanned, hrendered, ?_⟩
      simp only [Bool.false_eq_true, if_false] at hrun
      cases hwritten : (writeFiles (m := StateM FileTree) output files).run.run tree with
      | mk result reached =>
          rw [hwritten] at hrun
          cases result with
          | error fault =>
              obtain rfl := (Prod.mk.inj hrun).1
              cases hcode
          | ok _ =>
              obtain rfl := (Prod.mk.inj hrun).2
              rfl

end Tree

end TrackingPlan.Command
