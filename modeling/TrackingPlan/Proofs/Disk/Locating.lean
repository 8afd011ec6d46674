import Mathlib.Data.List.Induction
import TrackingPlan.Proofs.Disk.Sight
import TrackingPlan.Proofs.Path.Names

/-!
# Locations of paths

A disk follows the names of a path through its directories. Where this leads
somewhere, it is where the names lead by themselves, in a directory.
-/

namespace TrackingPlan

namespace FileTree

/-- What there is at a location. -/
def look (tree : FileTree) (location : List String) : Sight := tree.root.look location

theorem look_dropLast {tree : FileTree} {location : List String}
    (hlook : tree.look location = .directory) : tree.look location.dropLast = .directory := by
  cases location using List.reverseRecOn with
  | nil => exact hlook
  | append_singleton parent name =>
      rw [List.dropLast_concat]
      refine Entry.look_of_look_append (List.cons_ne_nil name []) ?_
      change tree.look (parent ++ [name]) ≠ .nothing
      simp [hlook]

/-- Where one name leads from a directory. -/
def step (location : List String) (name : String) : List String :=
  if name = "." then location else if name = ".." then location.dropLast else location ++ [name]

theorem walk_cons_eq_ok_iff {tree : FileTree} {location rest found : List String} {name : String} :
    tree.walk location (name :: rest) = .ok found ↔ tree.look location = .directory ∧
      name.utf8ByteSize ≤ nameLimit ∧ tree.walk (step location name) rest = .ok found := by
  rw [walk, look, Entry.look, ← get?]
  cases tree.get? location with
  | none => simp [Sight.ofEntry]
  | some entry =>
      cases entry with
      | file contents => simp [Sight.ofEntry]
      | directory entries =>
          have hdirectory : Sight.ofEntry (some (.directory entries)) = .directory := rfl
          simp only [hdirectory, true_and]
          by_cases hdot : name = "."
          · have hsize : name.utf8ByteSize ≤ nameLimit := by subst hdot; decide
            simp only [hdot, step, if_true, hdot ▸ hsize, true_and]
          · by_cases hdots : name = ".."
            · have hsize : name.utf8ByteSize ≤ nameLimit := by subst hdots; decide
              simp only [hdots, step, if_true, hdots ▸ hsize, true_and]
              rfl
            · by_cases hsize : nameLimit < name.utf8ByteSize
              · simp [hdot, hdots, hsize, Nat.not_le.mpr hsize]
              · simp [hdot, hdots, hsize, step, Nat.not_lt.mp hsize]

/-- Where names lead on the disk, they lead by themselves. -/
theorem follow_of_walk {tree : FileTree} {location names found : List String}
    (hwalk : tree.walk location names = .ok found) :
    Path.follow location (names.filter (· != ".")) = found := by
  induction names generalizing location with
  | nil => exact Except.ok.inj hwalk
  | cons name rest ih =>
      obtain ⟨-, -, hrest⟩ := walk_cons_eq_ok_iff.mp hwalk
      by_cases hdot : name = "."
      · rw [step, if_pos hdot] at hrest
        rw [List.filter_cons_of_neg (by simpa using hdot), ih hrest]
      · rw [step, if_neg hdot] at hrest
        rw [List.filter_cons_of_pos (by simpa using hdot), ← ih hrest]
        rfl

/-- A location that is found is in a directory. -/
theorem look_dropLast_of_walk {tree : FileTree} {location names found : List String}
    (hparent : tree.look location.dropLast = .directory)
    (hwalk : tree.walk location names = .ok found) : tree.look found.dropLast = .directory := by
  induction names generalizing location with
  | nil => exact Except.ok.inj hwalk ▸ hparent
  | cons name rest ih =>
      obtain ⟨hlook, -, hrest⟩ := walk_cons_eq_ok_iff.mp hwalk
      refine ih ?_ hrest
      unfold step
      split
      · exact hparent
      · split
        · exact look_dropLast hparent
        · rw [List.dropLast_concat]
          exact hlook

/-- The names that a path passes, with a dot for a slash at its end. -/
def passed (path : Path) : List String :=
  let names := (Text.segments path.text).filter (· != "")
  if path.text.toList.getLast? == some '/' then names ++ ["."] else names

theorem filter_passed (path : Path) : (passed path).filter (· != ".") = path.names := by
  have hnames : ((Text.segments path.text).filter (· != "")).filter (· != ".") = path.names := by
    rw [List.filter_filter, Path.names]
    congr 1
    funext name
    exact Bool.and_comm _ _
  unfold passed
  split
  · rw [List.filter_append, hnames]
    exact List.append_nil _
  · exact hnames

theorem passed_ne_nil {path : Path} (htext : path.text ≠ "") : passed path ≠ [] := by
  unfold passed
  split
  · exact List.append_ne_nil_of_right_ne_nil _ (List.cons_ne_nil _ _)
  next hslash =>
    -- Without a slash at the end, the last segment is not empty.
    have hne : path.text.toList ≠ [] := fun hnil => htext (String.toList_eq_nil_iff.mp hnil)
    obtain ⟨c, hlast⟩ := Option.ne_none_iff_exists'.mp (List.getLast?_eq_none_iff.not.mpr hne)
    obtain ⟨before, hchars⟩ := List.getLast?_eq_some_iff.mp hlast
    have hc : '/' ∉ [c] := by
      rw [List.mem_singleton]
      rintro rfl
      exact hslash (by simp [hlast])
    obtain ⟨parts, last, -, hparts⟩ := Text.exists_splitOn_append hc before
    have hkept : (String.ofList (last ++ [c]) != "") = true := by
      rw [bne_iff_ne]
      intro hempty
      have hnil := congrArg String.toList hempty
      simp at hnil
    rw [Text.segments, hchars, hparts, List.map_append, List.map_singleton, List.filter_append,
      List.filter_cons_of_pos (p := fun name => name != "") hkept]
    exact List.append_ne_nil_of_right_ne_nil _ (List.cons_ne_nil _ _)

/-- Where the following of a path starts. -/
def start (tree : FileTree) (path : Path) : List String :=
  if path.isAbsolute then [] else tree.workingDirectory

theorem locate_eq_ok_iff {tree : FileTree} {path : Path} {found : List String} :
    tree.locate path = .ok found ↔
      (path.text.toList.any (·.toNat == 0) = false ∧ path.text ≠ "" ∧
        path.text.utf8ByteSize ≤ pathLimit) ∧
      tree.walk (tree.start path) (passed path) = .ok found := by
  unfold locate
  cases hname : path.text.toList.any (·.toNat == 0) with
  | true => simp
  | false =>
      by_cases htext : path.text = ""
      · simp [htext]
      · by_cases hsize : pathLimit < path.text.utf8ByteSize
        · simp [htext, hsize, Nat.not_le.mpr hsize]
        · simp only [Bool.false_eq_true, if_false, htext, hsize, ne_eq, not_false_eq_true,
            Nat.not_lt.mp hsize, true_and]
          rfl

/-- A path leads on the disk where it leads by its names alone. -/
theorem resolve?_of_locate {tree : FileTree} {path : Path} {found : List String}
    (hlocate : tree.locate path = .ok found) :
    path.resolve? tree.workingDirectory = some found := by
  obtain ⟨⟨-, htext, -⟩, hwalk⟩ := locate_eq_ok_iff.mp hlocate
  rw [Path.resolve?, if_neg htext, ← filter_passed]
  exact congrArg some (follow_of_walk hwalk)

theorem look_dropLast_of_locate {tree : FileTree} {path : Path} {found : List String}
    (hlocate : tree.locate path = .ok found) : tree.look found.dropLast = .directory := by
  obtain ⟨⟨-, htext, -⟩, hwalk⟩ := locate_eq_ok_iff.mp hlocate
  obtain ⟨name, rest, hpassed⟩ := List.exists_cons_of_ne_nil (passed_ne_nil htext)
  rw [hpassed] at hwalk
  have hstart := (walk_cons_eq_ok_iff.mp hwalk).1
  exact look_dropLast_of_walk (look_dropLast hstart) hwalk

theorem look_eq_of_get? {tree : FileTree} {location : List String} {entry : Option Entry}
    (hget : tree.get? location = entry) : tree.look location = .ofEntry entry :=
  congrArg Sight.ofEntry hget

theorem isFile_iff {tree : FileTree} {path : Path} : tree.isFile path = true ↔
    ∃ location contents, tree.locate path = .ok location ∧
      (tree.look location).contents? = some contents := by
  unfold isFile entry?
  cases hlocate : tree.locate path with
  | error fault => simp
  | ok location =>
      cases hget : tree.get? location with
      | none => simp [hget, look_eq_of_get? hget, Sight.ofEntry, Sight.contents?]
      | some entry =>
          cases entry <;> simp [hget, look_eq_of_get? hget, Sight.ofEntry, Sight.contents?]

theorem not_isFile_empty (workingDirectory : List String) (path : Path) :
    ¬ (empty workingDirectory).isFile path = true := by
  intro hfile
  obtain ⟨location, contents, -, hcontents⟩ := isFile_iff.mp hfile
  rw [look, empty, Entry.contents?_look_nested] at hcontents
  cases hcontents

theorem readText_eq_ok_iff {tree : FileTree} {path : Path} {text : String} :
    tree.readText path = .ok text ↔ ∃ location, tree.locate path = .ok location ∧
      (tree.look location).contents? = some (.text text) := by
  unfold readText
  cases hlocate : tree.locate path with
  | error fault => simp [bind, Except.bind]
  | ok location =>
      simp only [bind, Except.bind, Except.ok.injEq, exists_eq_left']
      cases hget : tree.get? location with
      | none => simp [look_eq_of_get? hget, Sight.ofEntry, Sight.contents?]
      | some entry =>
          cases entry with
          | directory entries => simp [look_eq_of_get? hget, Sight.ofEntry, Sight.contents?]
          | file contents =>
              cases contents <;> simp [look_eq_of_get? hget, Sight.ofEntry, Sight.contents?]

end FileTree

end TrackingPlan
