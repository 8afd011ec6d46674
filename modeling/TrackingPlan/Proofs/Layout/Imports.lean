import TrackingPlan.Layout
import TrackingPlan.Proofs.Path.Location

/-!
# Specifiers of imports

A specifier leads up as many directories as it is meant to, and then along the
path that it is made of. It always says that it is relative.
-/

namespace TrackingPlan

open TypeScript

/-- The specifier of an import. -/
def TypeScript.Import.source : Import → String
  | allAs _ source => source
  | defaultAs _ source => source

theorem names_times_above (depth : Nat) (path : String) :
    Path.names ⟨Text.times depth "../" ++ path⟩ =
      List.replicate depth ".." ++ Path.names ⟨path⟩ := by
  induction depth with
  | zero => simp [Text.times]
  | succ depth ih =>
      have htext : Text.times (depth + 1) "../" ++ path =
          ".." ++ "/" ++ (Text.times depth "../" ++ path) := by
        rw [Text.times, String.append_assoc]
        rfl
      have habove : Path.names ⟨".."⟩ = [".."] := rfl
      rw [htext, Path.names_append_slash, ih, habove, List.replicate_succ]
      rfl

theorem names_here (path : String) : Path.names ⟨"./" ++ path⟩ = Path.names ⟨path⟩ := by
  have hhere : Path.names ⟨"."⟩ = [] := rfl
  have hnames := Path.names_append_slash "." path
  rwa [hhere, List.nil_append] at hnames

/-- Without what says that it starts here, a path has the same names, and a
specifier is made of that. -/
theorem exists_relativeTo_eq (path : String) :
    ∃ rest : String, Path.names ⟨path⟩ = Path.names ⟨rest⟩ ∧ ∀ depth, relativeTo depth path =
      if 0 < depth then Text.times depth "../" ++ rest
      else if ['.', '.', '/'].isPrefixOf rest.toList then rest
      else "./" ++ rest := by
  by_cases hhere : ['.', '/'].isPrefixOf path.toList = true
  · obtain ⟨chars, hchars⟩ := List.isPrefixOf_iff_prefix.mp hhere
    have hpath : path = "./" ++ String.ofList chars := by
      apply String.toList_injective
      simp [← hchars]
    refine ⟨String.ofList chars, by rw [hpath, names_here], fun depth => ?_⟩
    simp [relativeTo, ← hchars]
  · exact ⟨path, rfl, fun depth => by simp [relativeTo, hhere]⟩

theorem names_relativeTo (depth : Nat) (path : String) :
    Path.names ⟨relativeTo depth path⟩ = List.replicate depth ".." ++ Path.names ⟨path⟩ := by
  obtain ⟨rest, hnames, hspecifier⟩ := exists_relativeTo_eq path
  rw [hspecifier, hnames]
  cases depth with
  | zero =>
      simp only [Nat.lt_irrefl, if_false, List.replicate_zero, List.nil_append]
      split
      · rfl
      · exact names_here rest
  | succ depth =>
      rw [if_pos (Nat.succ_pos depth)]
      exact names_times_above (depth + 1) rest

/-- Every specifier starts with `./` or `../`. -/
theorem relativeTo_starts (depth : Nat) (path : String) :
    ['.', '/'] <+: (relativeTo depth path).toList ∨
      ['.', '.', '/'] <+: (relativeTo depth path).toList := by
  obtain ⟨rest, -, hspecifier⟩ := exists_relativeTo_eq path
  rw [hspecifier]
  cases depth with
  | zero =>
      simp only [Nat.lt_irrefl, if_false]
      split
      next habove => exact .inr (List.isPrefixOf_iff_prefix.mp habove)
      next => exact .inl ⟨rest.toList, by simp⟩
  | succ depth =>
      rw [if_pos (Nat.succ_pos depth), Text.times]
      exact .inr ⟨(Text.times depth "../" ++ rest).toList, by simp⟩

theorem exists_source_eq {options : LayoutOptions} {depth : Nat} {entry : Import}
    (hentry : Item.imported entry ∈ moduleImports options depth) :
    ∃ path, entry.source = relativeTo depth path := by
  rcases List.mem_cons.mp hentry with hshared | himplemented
  · obtain rfl := Item.imported.inj hshared
    exact ⟨sharedDefinitions, rfl⟩
  · obtain ⟨path, -, hmapped⟩ :=
      Option.map_eq_some_iff.mp (Option.mem_toList.mp himplemented)
    obtain rfl := Item.imported.inj hmapped
    exact ⟨path, rfl⟩

end TrackingPlan
