import Mathlib.Data.List.Basic
import TrackingPlan.Path

/-!
# Names of paths

The names of a joined path are those of its parts, and following names means
following them one after the other.
-/

namespace TrackingPlan

namespace Text

variable {separator : Char}

theorem splitOn_separator_cons (rest : List Char) :
    splitOn separator (separator :: rest) = [] :: splitOn separator rest := by
  rw [splitOn, if_pos rfl]

/-- Cutting is that of the library. -/
theorem splitOn_eq (separator : Char) (chars : List Char) :
    splitOn separator chars = chars.splitOn separator := by
  induction chars with
  | nil => rfl
  | cons c rest ih =>
      obtain ⟨part, parts, hparts⟩ := List.exists_cons_of_ne_nil (List.splitOn_ne_nil separator rest)
      rw [splitOn, List.splitOn_cons_eq_if_modifyHead, ih, hparts]
      by_cases hc : c = separator <;> simp [hc]

theorem splitOn_of_not_mem {chars : List Char} (hchars : separator ∉ chars) :
    splitOn separator chars = [chars] := by
  rw [splitOn_eq]
  exact List.splitOn_eq_singleton hchars

theorem splitOn_append_separator (before after : List Char) :
    splitOn separator (before ++ separator :: after) =
      splitOn separator before ++ splitOn separator after := by
  simp only [splitOn_eq]
  exact List.splitOn_append_cons_self before after

/-- The last part grows by what has no separator. -/
theorem exists_splitOn_append {more : List Char} (hmore : separator ∉ more) (chars : List Char) :
    ∃ parts last, splitOn separator chars = parts ++ [last] ∧
      splitOn separator (chars ++ more) = parts ++ [last ++ more] := by
  induction chars with
  | nil =>
      exact ⟨[], [], rfl, splitOn_of_not_mem hmore⟩
  | cons c rest ih =>
      obtain ⟨parts, last, hparts, happend⟩ := ih
      rw [List.cons_append]
      by_cases hc : c = separator
      · subst hc
        exact ⟨[] :: parts, last, by rw [splitOn_separator_cons, hparts]; rfl,
          by rw [splitOn_separator_cons, happend]; rfl⟩
      · rw [splitOn, if_neg hc, splitOn, if_neg hc, hparts, happend]
        cases parts with
        | nil => exact ⟨[], c :: last, rfl, rfl⟩
        | cons part parts => exact ⟨(c :: part) :: parts, last, rfl, rfl⟩

theorem not_mem_of_mem_splitOn {chars part : List Char} (hpart : part ∈ splitOn separator chars) :
    separator ∉ part := by
  induction chars generalizing part with
  | nil =>
      obtain rfl := List.mem_singleton.mp hpart
      exact List.not_mem_nil
  | cons c rest ih =>
      rw [splitOn] at hpart
      split at hpart
      next hc =>
        rcases List.mem_cons.mp hpart with rfl | hpart
        · exact List.not_mem_nil
        · exact ih hpart
      next hc =>
        obtain ⟨parts, last, hparts, -⟩ := exists_splitOn_append List.not_mem_nil rest
        rw [hparts] at hpart ih
        cases parts with
        | nil =>
            obtain rfl := List.mem_singleton.mp hpart
            have hlast := ih (List.mem_singleton.mpr rfl)
            simpa [Ne.symm hc] using hlast
        | cons first others =>
            rcases List.mem_cons.mp hpart with rfl | hother
            · have hfirst := ih List.mem_cons_self
              simpa [Ne.symm hc] using hfirst
            · exact ih (List.mem_cons_of_mem _ hother)

theorem segments_append_slash (before after : String) :
    segments (before ++ "/" ++ after) = segments before ++ segments after := by
  have hchars : (before ++ "/" ++ after).toList = before.toList ++ '/' :: after.toList := by
    simp
  rw [segments, hchars, splitOn_append_separator, List.map_append]
  rfl

end Text

namespace Path

theorem names_append_slash (before after : String) :
    names ⟨before ++ "/" ++ after⟩ = names ⟨before⟩ ++ names ⟨after⟩ := by
  simp only [names, Text.segments_append_slash, List.filter_append]

theorem names_empty : names ⟨""⟩ = [] := rfl

theorem names_of_segment {name : String} (hempty : name ≠ "") (hdot : name ≠ ".")
    (hslash : '/' ∉ name.toList) : names ⟨name⟩ = [name] := by
  have hkept : (name != "" && name != ".") = true :=
    Bool.and_eq_true_iff.mpr ⟨bne_iff_ne.mpr hempty, bne_iff_ne.mpr hdot⟩
  rw [names, Text.segments, Text.splitOn_of_not_mem hslash, List.map_singleton,
    String.ofList_toList, List.filter_cons_of_pos (p := fun name => name != "" && name != ".") hkept]
  rfl

theorem exists_append_slash {path : Path} (hlast : path.text.toList.getLast? = some '/') :
    ∃ before : String, path = ⟨before ++ "/"⟩ := by
  obtain ⟨chars, hchars⟩ := List.getLast?_eq_some_iff.mp hlast
  refine ⟨String.ofList chars, ?_⟩
  obtain ⟨text⟩ := path
  congr 1
  apply String.toList_injective
  simp only at hchars
  simp [hchars]

theorem names_join (base path : Path) :
    (base.join path).names = if path.isAbsolute then path.names else base.names ++ path.names := by
  unfold join
  split
  · rfl
  · split
    next hlast =>
      have hempty : base = ⟨""⟩ := by
        obtain ⟨text⟩ := base
        congr 1
        exact String.toList_eq_nil_iff.mp (List.getLast?_eq_none_iff.mp hlast)
      rw [hempty, names_empty, List.nil_append]
    next hlast =>
      obtain ⟨before, rfl⟩ := exists_append_slash hlast
      have hbefore := names_append_slash before ""
      rw [String.append_empty, names_empty, List.append_nil] at hbefore
      rw [names_append_slash, hbefore]
    next hlast => exact names_append_slash base.text path.text

theorem isAbsolute_join (base path : Path) :
    (base.join path).isAbsolute = (path.isAbsolute || base.isAbsolute) := by
  unfold join
  cases habsolute : path.isAbsolute with
  | true => exact habsolute
  | false =>
      have hprefix : ∀ more : String, base.text.toList ≠ [] →
          (⟨base.text ++ more⟩ : Path).isAbsolute = base.isAbsolute := by
        intro more hne
        obtain ⟨c, rest, hchars⟩ := List.exists_cons_of_ne_nil hne
        simp [isAbsolute, hchars]
      simp only [Bool.false_eq_true, if_false, Bool.false_or]
      split
      next hlast =>
        have hnil := List.getLast?_eq_none_iff.mp hlast
        rw [habsolute]
        simp [isAbsolute, hnil]
      next hlast => exact hprefix path.text (by rintro hnil; simp [hnil] at hlast)
      next hlast =>
        rw [String.append_assoc]
        exact hprefix ("/" ++ path.text) (by rintro hnil; simp [hnil] at hlast)

/-- What is put in front of a path depends on the base only. -/
theorem exists_join_eq (base : Path) :
    ∃ front : String, ∀ path : Path, path.isAbsolute = false → base.join path =
      ⟨front ++ path.text⟩ := by
  cases hlast : base.text.toList.getLast? with
  | none => exact ⟨"", fun path hpath => by simp [join, hpath, hlast]⟩
  | some c =>
      by_cases hc : c = '/'
      · subst hc
        exact ⟨base.text, fun path hpath => by simp [join, hpath, hlast]⟩
      · refine ⟨base.text ++ "/", fun path hpath => ?_⟩
        simp only [join, hpath, Bool.false_eq_true, if_false, hlast]

theorem join_append_of_getLast? {front name : String} {c : Char}
    (hlast : name.toList.getLast? = some c) (hc : c ≠ '/') {path : Path}
    (hpath : path.isAbsolute = false) :
    join ⟨front ++ name⟩ path = ⟨front ++ name ++ "/" ++ path.text⟩ := by
  have hfront : (front ++ name).toList.getLast? = some c := by
    rw [String.toList_append, List.getLast?_append, hlast]
    rfl
  simp only [join, hpath, Bool.false_eq_true, if_false, hfront]

/-- An ending that is too long for dots belongs to the last name. -/
theorem exists_names_append (text ending : String) (hslash : '/' ∉ ending.toList)
    (hlong : 2 < ending.toList.length) :
    ∃ before last, names ⟨text ++ ending⟩ = before ++ [last ++ ending] := by
  obtain ⟨parts, last, -, hparts⟩ := Text.exists_splitOn_append hslash text.toList
  have hlast : String.ofList (last ++ ending.toList) = String.ofList last ++ ending := by simp
  have hlength : 2 < (String.ofList last ++ ending).toList.length := by
    simp only [String.toList_append, List.length_append]
    omega
  have hempty : String.ofList last ++ ending ≠ "" := fun heq => by simp [heq] at hlength
  have hdot : String.ofList last ++ ending ≠ "." := fun heq => by simp [heq] at hlength
  have hkept : (String.ofList last ++ ending != "" && String.ofList last ++ ending != ".") = true :=
    Bool.and_eq_true_iff.mpr ⟨bne_iff_ne.mpr hempty, bne_iff_ne.mpr hdot⟩
  rw [names, Text.segments, String.toList_append, hparts, List.map_append, List.map_singleton,
    hlast, List.filter_append,
    List.filter_cons_of_pos (p := fun name => name != "" && name != ".") hkept]
  exact ⟨_, _, rfl⟩

theorem follow_append (directory first second : List String) :
    follow directory (first ++ second) = follow (follow directory first) second :=
  List.foldl_append

theorem follow_upwards (directory : List String) : follow directory [".."] = directory.dropLast :=
  rfl

theorem follow_singleton (directory : List String) {name : String} (hname : name ≠ "..") :
    follow directory [name] = directory ++ [name] := by
  simp [follow, hname]

end Path

end TrackingPlan
