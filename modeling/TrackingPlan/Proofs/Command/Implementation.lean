import TrackingPlan.Proofs.Command.Imports
import TrackingPlan.Proofs.Path.Relative

/-!
# The way to the implementation

The implementation is named by a path from the working directory and imported
by one from the output directory. That one is the shortest, and what an import
makes of it leads to the implementation from as deep a directory as it is made
for.
-/

namespace TrackingPlan.Command

/-- The path of a module without its extension, if that is a known one. -/
structure IsStem (module stem : Path) : Prop where
  of_known : ∀ extension ∈ ["ts", "tsx", "js", "mjs"], module.extension? = some extension →
    stem = module.dropExtension
  of_unknown : (∀ extension ∈ ["ts", "tsx", "js", "mjs"], module.extension? ≠ some extension) →
    stem = module

theorem isStem_importedPath (module : Path) : IsStem module (Settings.importedPath module) := by
  refine ⟨fun extension hknown hextension => ?_, fun hunknown => ?_⟩
  · rw [Settings.importedPath, hextension]
    exact if_pos (List.contains_iff_mem.mpr hknown)
  · unfold Settings.importedPath
    split
    next extension hextension =>
      exact if_neg fun hknown => hunknown extension (List.contains_iff_mem.mp hknown) hextension
    next => rfl

theorem importedPath_ne_empty {module : Path} (hmodule : module.text ≠ "") :
    (Settings.importedPath module).text ≠ "" := by
  unfold Settings.importedPath
  split
  next extension hextension =>
    split
    · exact Path.dropExtension_ne_empty hextension
    · exact hmodule
  next => exact hmodule

theorem resolve_of_ne_empty {path : Path} (hpath : path.text ≠ "")
    (workingDirectory : List String) :
    Settings.resolve workingDirectory path = .ok (path.location workingDirectory) := by
  rw [Settings.resolve, Path.resolve?_eq_some hpath]

/-- Paths that lead somewhere have a way between them. -/
theorem implementationImport_of_ne_empty {output module : Path} (houtput : output.text ≠ "")
    (hmodule : module.text ≠ "") (workingDirectory : List String) :
    Settings.implementationImport workingDirectory output module =
      .ok (Text.join "/" (Path.relative (output.location workingDirectory)
        ((Settings.importedPath module).location workingDirectory))) := by
  rw [Settings.implementationImport, resolve_of_ne_empty houtput,
    resolve_of_ne_empty (importedPath_ne_empty hmodule)]
  rfl

/-- From below a directory, so many steps up lead back to it. -/
theorem follow_relativeTo (source below : List String) (path : String) :
    Path.follow (source ++ below) (Path.names ⟨relativeTo below.length path⟩) =
      Path.follow source (Path.names ⟨path⟩) := by
  have habove := Path.follow_above source below
  rw [List.map_const'] at habove
  rw [names_relativeTo, Path.follow_append, habove]

/-- The implementation is imported by the shortest way from the output directory, and the
specifier that a module makes of it leads there from its own depth. -/
theorem implementation_reached {workingDirectory : List String} {output module : Path}
    (hdirectory : ∀ name ∈ workingDirectory, Path.IsStepDown name)
    (houtput : output.text ≠ "") (hmodule : module.text ≠ "") :
    ∃ stem source target path,
      IsStem module stem ∧ ImportedAs module stem ∧
      output.resolve? workingDirectory = some source ∧
      stem.resolve? workingDirectory = some target ∧
      (∀ name ∈ source ++ target, Path.IsStepDown name) ∧
      Settings.implementationImport workingDirectory output module = .ok path ∧
      path = Text.join "/" (Path.names ⟨path⟩) ∧
      Path.IsShortestWay source target (Path.names ⟨path⟩) ∧
      ∀ below : List String,
        (['.', '/'] <+: (relativeTo below.length path).toList ∨
          ['.', '.', '/'] <+: (relativeTo below.length path).toList) ∧
        Path.follow (source ++ below) (Path.names ⟨relativeTo below.length path⟩) = target := by
  have htarget := Path.isStepDown_of_mem_location hdirectory (Settings.importedPath module)
  have hsource := Path.isStepDown_of_mem_location hdirectory output
  have hway := Path.isShortestWay_relative (output.location workingDirectory) htarget
  have hnames := Path.names_join_relative (output.location workingDirectory) htarget
  refine ⟨Settings.importedPath module, _, _, _, isStem_importedPath module,
    importedAs_importedPath module, Path.resolve?_eq_some houtput workingDirectory,
    Path.resolve?_eq_some (importedPath_ne_empty hmodule) workingDirectory,
    List.forall_mem_append.mpr ⟨hsource, htarget⟩,
    implementationImport_of_ne_empty houtput hmodule workingDirectory, by rw [hnames],
    by rwa [hnames], fun below => ⟨relativeTo_starts _ _, ?_⟩⟩
  rw [follow_relativeTo, hnames]
  exact hway.leads

theorem track_reached :
    let source := ["home", "app", "src", "out"]
    let target := ["home", "lib", "track"]
    Settings.implementationImport ["home", "app"] ⟨"gen/../src/out/"⟩ ⟨"../lib/./track.ts"⟩ =
      .ok "../../../lib/track" ∧
    Path.IsShortestWay source target ["..", "..", "..", "lib", "track"] ∧
    ∀ below : List String, Path.follow (source ++ below)
      (Path.names ⟨relativeTo below.length "../../../lib/track"⟩) = target := by
  have hdirectory : ∀ name ∈ ["home", "app"], Path.IsStepDown name := by
    rw [List.forall_mem_cons, List.forall_mem_singleton]
    exact ⟨⟨by decide, by decide, by decide, by decide⟩,
      ⟨by decide, by decide, by decide, by decide⟩⟩
  have houtput : (⟨"gen/../src/out/"⟩ : Path).text ≠ "" := by decide
  have hmodule : (⟨"../lib/./track.ts"⟩ : Path).text ≠ "" := by decide
  obtain ⟨stem, source, target, path, hstem, -, hsource, htarget, -, himport, -, hway, hreached⟩ :=
    implementation_reached hdirectory houtput hmodule
  obtain rfl : stem = ⟨"../lib/./track"⟩ :=
    (hstem.of_known "ts" (by decide) rfl).trans rfl
  obtain rfl : ["home", "app", "src", "out"] = source :=
    Option.some.inj (Eq.trans rfl hsource)
  obtain rfl : ["home", "lib", "track"] = target :=
    Option.some.inj (Eq.trans rfl htarget)
  obtain rfl : "../../../lib/track" = path :=
    Except.ok.inj (Eq.trans rfl himport)
  have hnames : Path.names ⟨"../../../lib/track"⟩ = ["..", "..", "..", "lib", "track"] := rfl
  exact ⟨himport, hnames ▸ hway, fun below => (hreached below).2⟩

end TrackingPlan.Command
