import TrackingPlan.Command.Arguments
import TrackingPlan.Proofs.FirstFault

/-!
# Arguments of a check

The arguments of a run, with `--check` in front of them, are those of a check
with the same options. Arguments with `--check` anywhere ask for a check or for
nothing that touches a file, and without it for the run in its place.
-/

namespace TrackingPlan.Command

/-- The same options for a check. -/
def Options.checked (options : Options) : Options := { options with isCheck := true }

/-- The same options for a run that writes. -/
def Options.generating (options : Options) : Options := { options with isCheck := false }

/-- Storing a setting has nothing to do with checks. -/
theorem Setting.store_flag {setting : Setting} {value : String} {options stored : Options}
    (flag : Bool) (hstore : setting.store value options = .ok stored) :
    setting.store value { options with isCheck := flag } = .ok { stored with isCheck := flag } ∧
      stored.isCheck = options.isCheck := by
  cases setting <;>
  · obtain ⟨filled, hfilled, hstored⟩ := bind_eq_ok_iff.mp hstore
    obtain rfl := Except.ok.inj hstored
    exact ⟨bind_eq_ok_iff.mpr ⟨filled, hfilled, rfl⟩, rfl⟩

theorem isCheck_of_readOptions {options result : Options} {arguments : List String}
    (hread : readOptions options arguments = .ok (.generate result))
    (hcheck : options.isCheck = true) : result.isCheck = true := by
  fun_induction readOptions options arguments with
  | case1 options =>
      cases hread
      exact hcheck
  | case5 options text rest hdemand hnot ih => exact absurd hcheck hnot
  | case6 options text hdemand =>
      cases hread
      exact hcheck
  | case8 options text rest setting value hdemand ih =>
      obtain ⟨stored, hstore, hread⟩ := bind_eq_ok_iff.mp hread
      exact ih stored hread ((Setting.store_flag true hstore).2.trans hcheck)
  | case10 options text setting hdemand argument rest value hplain ih =>
      obtain ⟨stored, hstore, hread⟩ := bind_eq_ok_iff.mp hread
      exact ih stored hread ((Setting.store_flag true hstore).2.trans hcheck)
  | _ => cases hread

theorem readOptions_checked {options result : Options} {arguments : List String}
    (hread : readOptions options arguments = .ok (.generate result))
    (hcheck : result.isCheck = false) :
    readOptions options.checked arguments = .ok (.generate result.checked) := by
  fun_induction readOptions options arguments with
  | case1 options =>
      cases hread
      rfl
  | case5 options text rest hdemand hnot ih =>
      rw [isCheck_of_readOptions hread rfl] at hcheck
      cases hcheck
  | case6 options text hdemand =>
      cases hread
      unfold readOptions
      rw [hdemand]
  | case8 options text rest setting value hdemand ih =>
      obtain ⟨stored, hstore, hread⟩ := bind_eq_ok_iff.mp hread
      unfold readOptions
      rw [hdemand]
      exact bind_eq_ok_iff.mpr ⟨_, (Setting.store_flag true hstore).1, ih stored hread⟩
  | case10 options text setting hdemand argument rest value hplain ih =>
      obtain ⟨stored, hstore, hread⟩ := bind_eq_ok_iff.mp hread
      unfold readOptions
      rw [hdemand]
      dsimp only
      rw [hplain]
      exact bind_eq_ok_iff.mpr ⟨_, (Setting.store_flag true hstore).1, ih stored hread⟩
  | _ => cases hread

/-- A run becomes a check by one argument more. -/
theorem ofArguments_check {arguments : List String} {options : Options}
    (hrequest : Request.ofArguments ("transliterate" :: arguments) = .ok (.generate options))
    (hcheck : options.isCheck = false) :
    Request.ofArguments ("transliterate" :: "--check" :: arguments) =
      .ok (.generate options.checked) := by
  have hdemand : Demand.ofArgument "--check" = .ok .check := rfl
  have hread : readOptions .none ("--check" :: arguments) =
      readOptions Options.none.checked arguments := by
    rw [readOptions.eq_def]
    dsimp only
    rw [hdemand]
    rfl
  exact hread.trans (readOptions_checked hrequest hcheck)

/-- A long option without a value is the whole argument. -/
theorem ofText_eq_long {text name : String} (htext : Argument.ofText text = .long name none) :
    text = "--" ++ name := by
  unfold Argument.ofText at htext
  split at htext
  next => cases htext
  next rest _ hlist =>
    obtain ⟨rfl, hvalue⟩ := Argument.long.inj htext
    have hlength : rest.length ≤ (rest.takeWhile (· != '=')).length := by
      simpa using hvalue
    have hname : rest.takeWhile (· != '=') = rest :=
      (List.takeWhile_prefix _).eq_of_length_le hlength
    apply String.toList_injective
    simp [hname, hlist]
  next => cases htext
  next => cases htext

/-- A check is asked for by one argument only. -/
theorem ofArgument_eq_check_iff {text : String} :
    Demand.ofArgument text = .ok .check ↔ text = "--check" := by
  constructor
  · intro hdemand
    unfold Demand.ofArgument at hdemand
    split at hdemand
    case h_3 htext => exact ofText_eq_long htext
    case h_5 => split at hdemand <;> cases hdemand
    case h_6 => split at hdemand <;> cases hdemand
    all_goals cases hdemand
  · rintro rfl
    rfl

/-- What is read behind `--check` is read without it. -/
theorem readOptions_generating {options result : Options} {arguments : List String}
    (hread : readOptions options arguments = .ok (.generate result))
    (hcheck : options.isCheck = true) :
    readOptions options.generating arguments = .ok (.generate result.generating) := by
  fun_induction readOptions options arguments with
  | case1 options =>
      cases hread
      rfl
  | case5 options text rest hdemand hnot ih => exact absurd hcheck hnot
  | case6 options text hdemand =>
      cases hread
      unfold readOptions
      rw [hdemand]
  | case8 options text rest setting value hdemand ih =>
      obtain ⟨stored, hstore, hread⟩ := bind_eq_ok_iff.mp hread
      have hstored := (Setting.store_flag false hstore).2.trans hcheck
      unfold readOptions
      rw [hdemand]
      exact bind_eq_ok_iff.mpr ⟨_, (Setting.store_flag false hstore).1, ih stored hread hstored⟩
  | case10 options text setting hdemand argument rest value hplain ih =>
      obtain ⟨stored, hstore, hread⟩ := bind_eq_ok_iff.mp hread
      have hstored := (Setting.store_flag false hstore).2.trans hcheck
      unfold readOptions
      rw [hdemand]
      dsimp only
      rw [hplain]
      exact bind_eq_ok_iff.mpr ⟨_, (Setting.store_flag false hstore).1, ih stored hread hstored⟩
  | _ => cases hread

/-- Options that are read from arguments with `--check` are those of a check, and without it
the same are read for a run in its place. -/
theorem readOptions_erase_check {options result : Options} {arguments : List String}
    (hread : readOptions options arguments = .ok (.generate result))
    (hmem : "--check" ∈ arguments) (hcheck : options.isCheck = false) :
    result.isCheck = true ∧
      readOptions options (arguments.erase "--check") = .ok (.generate result.generating) := by
  have hother : ∀ {text : String} {demand : Demand}, Demand.ofArgument text = .ok demand →
      demand ≠ .check → text ≠ "--check" := by
    rintro text demand hdemand hne rfl
    exact hne (Except.ok.inj hdemand).symm
  fun_induction readOptions options arguments with
  | case1 options => cases hmem
  | case5 options text rest hdemand hnot ih =>
      obtain rfl := ofArgument_eq_check_iff.mp hdemand
      have hread' := readOptions_generating hread rfl
      have hoptions : Options.generating { options with isCheck := true } = options := by
        rw [Options.generating, ← hcheck]
      rw [hoptions] at hread'
      rw [List.erase_cons_head]
      exact ⟨isCheck_of_readOptions hread rfl, hread'⟩
  | case6 options text hdemand =>
      exact absurd (List.mem_singleton.mp hmem).symm (hother hdemand nofun)
  | case8 options text rest setting value hdemand ih =>
      have htext := hother hdemand nofun
      obtain ⟨stored, hstore, hread⟩ := bind_eq_ok_iff.mp hread
      obtain ⟨hresult, hread⟩ := ih stored hread ((List.mem_cons.mp hmem).resolve_left htext.symm)
        ((Setting.store_flag false hstore).2.trans hcheck)
      refine ⟨hresult, ?_⟩
      rw [List.erase_cons_tail (by simpa using htext)]
      unfold readOptions
      rw [hdemand]
      exact bind_eq_ok_iff.mpr ⟨stored, hstore, hread⟩
  | case10 options text setting hdemand argument rest value hplain ih =>
      have htext := hother hdemand nofun
      -- A value is a plain argument.
      have hargument : argument ≠ "--check" := by
        rintro rfl
        cases hplain
      obtain ⟨stored, hstore, hread⟩ := bind_eq_ok_iff.mp hread
      have hrest : "--check" ∈ rest := by
        simpa [htext.symm, hargument.symm] using hmem
      obtain ⟨hresult, hread⟩ := ih stored hread hrest
        ((Setting.store_flag false hstore).2.trans hcheck)
      refine ⟨hresult, ?_⟩
      rw [List.erase_cons_tail (by simpa using htext),
        List.erase_cons_tail (by simpa using hargument)]
      unfold readOptions
      rw [hdemand]
      dsimp only
      rw [hplain]
      exact bind_eq_ok_iff.mpr ⟨stored, hstore, hread⟩
  | _ => cases hread

/-- A check becomes a run by one argument less. -/
theorem ofArguments_erase_check {arguments : List String} {options : Options}
    (hrequest : Request.ofArguments ("transliterate" :: arguments) = .ok (.generate options))
    (hmem : "--check" ∈ arguments) :
    options.isCheck = true ∧
      Request.ofArguments ("transliterate" :: arguments.erase "--check") =
        .ok (.generate options.generating) :=
  readOptions_erase_check hrequest hmem rfl

end TrackingPlan.Command
