import TrackingPlan.Proofs.GeneratedFile
import TrackingPlan.Proofs.LineDiff.Hunks
import TrackingPlan.Proofs.LineDiff.Shortest
import TrackingPlan.Proofs.Text.Lines

/-!
# Reading a shown difference

Every line of a shown hunk starts with a mark, and no line in it is the one that
stands between hunks. So the hunks can be read back from the text of a difference,
with their lines as they are but for line feeds.
-/

namespace TrackingPlan

namespace LineDiff

variable {old new : List String} {changes : List Change} {gaps : List (List String)}
  {runs : List (List Change)}

/-- The same change of another line. -/
def Change.map (f : String → String) : Change → Change
  | kept line => kept (f line)
  | dropped line => dropped (f line)
  | added line => added (f line)

theorem Change.isKept_map (f : String → String) (change : Change) :
    (change.map f).isKept = change.isKept := by
  cases change <;> rfl

theorem filterMap_old?_map (f : String → String) (hunk : List Change) :
    (hunk.map (Change.map f)).filterMap Change.old? = (hunk.filterMap Change.old?).map f := by
  rw [List.filterMap_map, List.map_filterMap]
  refine List.filterMap_congr fun change _ => ?_
  cases change <;> rfl

theorem filterMap_new?_map (f : String → String) (hunk : List Change) :
    (hunk.map (Change.map f)).filterMap Change.new? = (hunk.filterMap Change.new?).map f := by
  rw [List.filterMap_map, List.map_filterMap]
  refine List.filterMap_congr fun change _ => ?_
  cases change <;> rfl

theorem filter_isKept_map (f : String → String) (changes : List Change) :
    (changes.map (Change.map f)).filter (!·.isKept) =
      (changes.filter (!·.isKept)).map (Change.map f) := by
  rw [List.filter_map]
  simp only [Function.comp_def, Change.isKept_map]

/-- Runs show lines that are rewritten when they show the lines. -/
theorem Shows.map (f : String → String) (hshows : Shows old new changes gaps runs) :
    Shows (old.map f) (new.map f) (changes.map (Change.map f)) (gaps.map (·.map f))
      (runs.map (·.map (Change.map f))) where
  length_gaps := by rw [List.length_map, List.length_map, hshows.length_gaps]
  old_eq := by
    rw [hshows.old_eq, map_weave, List.map_map, List.map_map]
    simp only [Function.comp_def, filterMap_old?_map]
  new_eq := by
    rw [hshows.new_eq, map_weave, List.map_map, List.map_map]
    simp only [Function.comp_def, filterMap_new?_map]
  changed_eq := by
    rw [filter_isKept_map, ← hshows.changed_eq, ← filter_isKept_map, List.map_flatten]
  exists_changed := by
    obtain ⟨change, hchange, hchanged⟩ := hshows.exists_changed
    rw [← List.map_flatten]
    exact ⟨_, List.mem_map_of_mem hchange, (change.isKept_map f).trans hchanged⟩

/-- Lines that end in line feeds hold no other ones. -/
theorem not_mem_dropWhile_of_mem_splitLines {chars line : List Char}
    (hline : line ∈ splitLines chars) : '\n' ∉ (line.reverse.dropWhile (· == '\n')).reverse := by
  rw [List.mem_reverse]
  fun_induction splitLines chars generalizing line with
  | case1 => cases hline
  | case2 rest ih =>
      rcases List.mem_cons.mp hline with rfl | hline
      · decide
      · exact ih hline
  | case3 c rest hreturn hend ih =>
      rcases List.mem_cons.mp hline with rfl | hline
      · rcases hend with rfl | rfl <;> decide
      · exact ih hline
  | case4 c rest hreturn hend hrest ih =>
      obtain rfl := List.mem_singleton.mp hline
      have hfeed : c ≠ '\n' := fun hc => hend (.inl hc)
      simp [hfeed, Ne.symm hfeed]
  | case5 c rest hreturn hend first others hrest ih =>
      rw [hrest] at ih
      have hfeed : c ≠ '\n' := fun hc => hend (.inl hc)
      rcases List.mem_cons.mp hline with rfl | hline
      · have hfirst := ih List.mem_cons_self
        rw [List.reverse_cons, List.dropWhile_append]
        split
        · simp [hfeed, Ne.symm hfeed]
        · simpa [Ne.symm hfeed] using hfirst
      · exact ih (List.mem_cons_of_mem _ hline)

/-- The changes of an edit are of lines of the sequences. -/
theorem exists_of_mem_changesOf {old new : Array String} {edits : List Edit} {change : Change}
    (hchange : change ∈ changesOf old new edits) : ∃ line, (line ∈ old ∨ line ∈ new) ∧
      (change = .kept line ∨ change = .dropped line ∨ change = .added line) := by
  have hextract : ∀ {lines : Array String} {start stop : Nat} {line : String},
      line ∈ (lines.extract start stop).toList → line ∈ lines := by
    intro lines start stop line hline
    obtain ⟨k, hk, rfl⟩ := Array.mem_extract_iff_getElem.mp (Array.mem_toList_iff.mp hline)
    exact Array.getElem_mem _
  obtain ⟨edit, -, hchange⟩ := List.mem_flatMap.mp hchange
  cases edit with
  | keep | drop | add =>
      obtain ⟨line, hline, rfl⟩ := List.mem_map.mp hchange
      exact ⟨line, by simp [hextract hline], by simp⟩

end LineDiff

namespace GeneratedFile

open LineDiff (Change)

section Reading

/-- The lines of a text, if each of them ends in a line feed. -/
def fedLines? (text : String) : Option (List String) :=
  match (Text.splitOn '\n' text.toList).reverse with
  | [] :: lines => some (lines.reverse.map String.ofList)
  | _ => none

/-- The change that a line shows, by its mark. -/
def readChange? (line : String) : Option Change :=
  match line.toList with
  | ' ' :: rest => some (.kept (String.ofList rest))
  | '-' :: rest => some (.dropped (String.ofList rest))
  | '+' :: rest => some (.added (String.ofList rest))
  | _ => none

/-- The hunks in the text under the header of a difference. -/
def readHunks? (body : String) : Option (List (List Change)) := do
  let lines ← fedLines? body
  (lines.splitOn "...").mapM (·.mapM readChange?)

theorem fedLines?_unlines {lines : List String} (hlines : ∀ line ∈ lines, '\n' ∉ line.toList) :
    fedLines? (Text.unlines lines) = some lines := by
  rw [fedLines?, Text.splitOn_unlines hlines]
  simp [Function.comp_def]

theorem readChange?_changeText (change : Change) :
    readChange? (changeText false change) = some (change.map dropLineFeeds) := by
  cases change with
  | kept line | dropped line | added line =>
      simp [readChange?, changeText, Change.map, Emphasis.apply]

/-- No change is shown as the line between hunks. -/
theorem changeText_ne_dots (change : Change) : changeText false change ≠ "..." := by
  intro hdots
  have hread := readChange?_changeText change
  rw [hdots] at hread
  cases hread

/-- The lines of shown hunks, with a line between each two of them. -/
def hunkLines (hunks : List (List Change)) : List String :=
  ["..."].intercalate (hunks.map (·.map (changeText false)))

theorem hunkText_eq (hunk : List Change) :
    hunkText false hunk = Text.unlines (hunk.map (changeText false)) := by
  rw [Text.unlines, List.map_map]
  rfl

theorem hunkLines_singleton (hunk : List Change) :
    hunkLines [hunk] = hunk.map (changeText false) := by
  rw [hunkLines, List.map_singleton, List.intercalate_singleton]

theorem hunkLines_cons_cons (hunk next : List Change) (rest : List (List Change)) :
    hunkLines (hunk :: next :: rest) =
      hunk.map (changeText false) ++ "..." :: hunkLines (next :: rest) := by
  rw [hunkLines, List.map_cons, List.map_cons, List.intercalate_cons_cons, List.append_assoc]
  rfl

theorem join_hunkText (hunks : List (List Change)) :
    Text.join "...\n" (hunks.map (hunkText false)) = Text.unlines (hunkLines hunks) := by
  match hunks with
  | [] => rfl
  | [hunk] => rw [hunkLines_singleton, ← hunkText_eq]; rfl
  | hunk :: next :: rest =>
      have hrest := join_hunkText (next :: rest)
      have hdots : "..." ++ "\n" = "...\n" := by decide
      rw [List.map_cons] at hrest
      rw [hunkLines_cons_cons, List.map_cons, List.map_cons, Text.join, hrest, hunkText_eq,
        Text.unlines_append, Text.unlines_cons, hdots, String.append_assoc]

theorem not_mem_hunkLines {hunks : List (List Change)}
    (hlines : ∀ hunk ∈ hunks, ∀ change ∈ hunk, '\n' ∉ (changeText false change).toList) :
    ∀ line ∈ hunkLines hunks, '\n' ∉ line.toList := by
  match hunks with
  | [] => exact List.forall_mem_nil _
  | [hunk] =>
      rw [hunkLines_singleton, List.forall_mem_map]
      exact hlines hunk List.mem_cons_self
  | hunk :: next :: rest =>
      rw [List.forall_mem_cons] at hlines
      rw [hunkLines_cons_cons, List.forall_mem_append, List.forall_mem_map, List.forall_mem_cons]
      exact ⟨hlines.1, by decide, not_mem_hunkLines hlines.2⟩

/-- The hunks that are shown can be read back, with each line but for its line feed. -/
theorem readHunks?_join {hunks : List (List Change)} (hne : hunks ≠ [])
    (hlines : ∀ hunk ∈ hunks, ∀ change ∈ hunk, '\n' ∉ (changeText false change).toList) :
    readHunks? (Text.join "...\n" (hunks.map (hunkText false))) =
      some (hunks.map (·.map (Change.map dropLineFeeds))) := by
  have hdots : ∀ lines ∈ hunks.map (·.map (changeText false)), "..." ∉ lines := by
    intro lines hhunk hdots
    obtain ⟨hunk, -, rfl⟩ := List.mem_map.mp hhunk
    obtain ⟨change, -, hchange⟩ := List.mem_map.mp hdots
    exact changeText_ne_dots change hchange
  have hread : ∀ hunk : List Change, (hunk.map (changeText false)).mapM readChange? =
      some (hunk.map (Change.map dropLineFeeds)) := by
    intro hunk
    rw [List.mapM_map, show readChange? ∘ changeText false = some ∘ Change.map dropLineFeeds from
      funext readChange?_changeText]
    exact List.mapM_pure
  rw [readHunks?, join_hunkText, fedLines?_unlines (not_mem_hunkLines hlines), Option.bind_eq_bind,
    Option.bind_some, hunkLines, List.splitOn_intercalate _ hdots (by simpa using hne),
    List.mapM_map]
  simp only [Function.comp_def, hread]
  exact List.mapM_pure

example : readHunks? " one\n-two\n...\n+...\n" =
    some [[.kept "one", .dropped "two"], [.added "..."]] := by decide +kernel

end Reading

/-- The lines of a text without their line feeds. -/
def shownLines (text : String) : List String := (LineDiff.linesOf text).toList.map dropLineFeeds

theorem not_mem_dropLineFeeds {text line : String} (hline : line ∈ LineDiff.linesOf text) :
    '\n' ∉ (dropLineFeeds line).toList := by
  obtain ⟨chars, hchars, rfl⟩ := List.mem_map.mp (List.mem_toArray.mp hline)
  rw [dropLineFeeds, String.toList_ofList, String.toList_ofList]
  exact LineDiff.not_mem_dropWhile_of_mem_splitLines hchars

theorem not_mem_changeText {text text' : String} {edits : List LineDiff.Edit} {change : Change}
    (hchange : change ∈
      LineDiff.changesOf (LineDiff.linesOf text) (LineDiff.linesOf text') edits) :
    '\n' ∉ (changeText false change).toList := by
  obtain ⟨line, hline, hchange⟩ := LineDiff.exists_of_mem_changesOf hchange
  have hfree : '\n' ∉ (dropLineFeeds line).toList :=
    hline.elim not_mem_dropLineFeeds not_mem_dropLineFeeds
  rcases hchange with rfl | rfl | rfl <;>
    simpa [changeText, Emphasis.apply] using hfree

/-- The text under the header of a difference is read as hunks. They hold runs of the changes of a
script, and with the lines that are left out between the runs, either side of them is the lines
on disk or the generated ones. -/
structure IsFaithful (onDisk text body : String) (script : List LineDiff.Edit)
    (gaps : List (List String)) (runs hunks : List (List Change)) : Prop where
  isScript : LineDiff.IsScript (LineDiff.linesOf onDisk) (LineDiff.linesOf text) 0 0 script
    (LineDiff.linesOf onDisk).size (LineDiff.linesOf text).size
  reads : readHunks? body = some hunks
  hunks_eq : hunks.flatten = runs.flatten
  shows : LineDiff.Shows (shownLines onDisk) (shownLines text)
    ((LineDiff.changesOf (LineDiff.linesOf onDisk) (LineDiff.linesOf text) script).map
      (Change.map dropLineFeeds)) gaps runs

/-- The changes that a comparison of two texts shows, hunk by hunk. -/
def shownChanges (comparison : LineDiff.Comparison) (onDisk text : String) : List (List Change) :=
  (comparison.groups contextLines
      (comparison.edits (LineDiff.linesOf onDisk) (LineDiff.linesOf text))).map
    (LineDiff.changesOf (LineDiff.linesOf onDisk) (LineDiff.linesOf text))

theorem not_mem_shownChanges {comparison : LineDiff.Comparison} {onDisk text : String} :
    ∀ hunk ∈ shownChanges comparison onDisk text, ∀ change ∈ hunk,
      '\n' ∉ (changeText false change).toList := by
  intro hunk hhunk change hchange
  obtain ⟨edits, -, rfl⟩ := List.mem_map.mp hhunk
  exact not_mem_changeText hchange

/-- What a sound comparison of different texts shows is read back hunk by hunk. -/
theorem isFaithful_of_isSound {onDisk text : String} (hne : onDisk ≠ text)
    {comparison : LineDiff.Comparison} {gaps : List (List String)} {runs : List (List Change)}
    (hsound : comparison.IsSound contextLines (LineDiff.linesOf onDisk) (LineDiff.linesOf text)
      gaps runs) :
    IsFaithful onDisk text
      (Text.join "...\n" ((shownChanges comparison onDisk text).map (hunkText false)))
      (comparison.edits (LineDiff.linesOf onDisk) (LineDiff.linesOf text))
      (gaps.map (·.map dropLineFeeds)) (runs.map (·.map (Change.map dropLineFeeds)))
      ((shownChanges comparison onDisk text).map (·.map (Change.map dropLineFeeds))) := by
  have hshows := hsound.isScript.shows (LineDiff.linesOf_injective.ne hne) hsound.leavesOut
  have hruns : (shownChanges comparison onDisk text).flatten = runs.flatten := by
    rw [shownChanges, ← List.flatMap_def]
    exact hsound.groups_eq
  refine ⟨hsound.isScript, ?_, ?_, hshows.map dropLineFeeds⟩
  · -- A changed line is shown, so there is a hunk.
    obtain ⟨change, hchange, -⟩ := hshows.exists_changed
    rw [← hruns] at hchange
    obtain ⟨hunk, hhunk, -⟩ := List.mem_flatten.mp hchange
    exact readHunks?_join (List.ne_nil_of_mem hhunk) not_mem_shownChanges
  · rw [← List.map_flatten, hruns, List.map_flatten]

/-- The comparison of the lines in hunks is sound, and its hunks are the runs that it shows. -/
theorem exists_isSound_standard (onDisk text : String) : ∃ gaps,
    LineDiff.Comparison.standard.IsSound contextLines (LineDiff.linesOf onDisk)
      (LineDiff.linesOf text) gaps (shownChanges .standard onDisk text) := by
  obtain ⟨gaps, hleaves⟩ := LineDiff.exists_leavesOut_hunks contextLines
    (LineDiff.edits (LineDiff.linesOf onDisk) (LineDiff.linesOf text))
  refine ⟨gaps, ?_, ?_, ?_⟩
  · rw [LineDiff.Comparison.edits_standard]
    exact LineDiff.isScript_edits _ _
  · rw [shownChanges, LineDiff.Comparison.edits_standard, LineDiff.Comparison.groups_standard]
    exact hleaves
  · rw [shownChanges, List.flatMap_def]

theorem diffHeader_eq (path : String) : diffHeader false path =
    "--- " ++ path ++ " (on disk)\n" ++ "+++ " ++ path ++ " (generated)\n" := by
  have hdisk : " (on disk)" ++ "\n" = " (on disk)\n" := by decide
  have hgenerated : " (generated)" ++ "\n" = " (generated)\n" := by decide
  simp only [diffHeader, Emphasis.apply, Bool.false_eq_true, if_false, String.append_assoc, hdisk,
    hgenerated]

theorem exists_of_diffBy? {comparison : LineDiff.Comparison} {file : GeneratedFile} {diff : String}
    (hdiff : file.diffBy? comparison false = some diff) : ∃ onDisk, file.onDisk = some onDisk ∧
      onDisk ≠ file.text ∧
      diff = "--- " ++ file.path ++ " (on disk)\n" ++ "+++ " ++ file.path ++ " (generated)\n" ++
        Text.join "...\n" ((shownChanges comparison onDisk file.text).map (hunkText false)) := by
  unfold diffBy? at hdiff
  split at hdiff
  next => cases hdiff
  next onDisk honDisk =>
    split at hdiff
    next => cases hdiff
    next hne =>
      refine ⟨onDisk, honDisk, hne, ?_⟩
      rw [← diffHeader_eq, shownChanges, List.map_map]
      exact (Option.some.inj hdiff).symm

/-- Lines that look like marks and dots, with a change at either end. -/
def dotted : GeneratedFile where
  path := "cart.ts"
  text := "+a\n...\n c\n-d\ne\n+f\n g\n...\nz"
  onDisk := some "-a\n...\n c\n-d\ne\n+f\n g\n...\ny"

/-- All old lines are dropped, all new ones are added, and everything is shown. -/
def rewriting : LineDiff.Comparison where
  edits := fun old new => [.drop 0 old.size, .add 0 new.size]
  groups := fun _ edits => [edits]

theorem isSound_rewriting (context : Nat) (old new : Array String) :
    rewriting.IsSound context old new [[], []]
      [LineDiff.changesOf old new [.drop 0 old.size, .add 0 new.size]] where
  isScript := by
    have hscript : LineDiff.IsScript old new 0 0 [.drop 0 old.size, .add 0 new.size]
        (0 + old.size) (0 + new.size) := .drop (.add (.nil _ _))
    rwa [Nat.zero_add, Nat.zero_add] at hscript
  leavesOut := ⟨rfl, by simp [LineDiff.keptGaps, LineDiff.weave, rewriting]⟩
  groups_eq := rfl

end GeneratedFile

end TrackingPlan
