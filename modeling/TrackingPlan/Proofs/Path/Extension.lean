import Mathlib.Data.List.DropRight
import TrackingPlan.Proofs.Path.Names

/-!
# Extensions of paths

A path is taken apart into segments, of which some are idle. Dropping the
extension of a path changes its last name and nothing else, however many idle
segments follow.
-/

namespace TrackingPlan

namespace Path

/-- The segments that count, as texts. -/
def counted (segments : List (List Char)) : List String :=
  (segments.filter fun segment => !isIdle segment).map String.ofList

theorem counted_append (first second : List (List Char)) :
    counted (first ++ second) = counted first ++ counted second := by
  simp [counted]

theorem counted_singleton {segment : List Char} (hsegment : isIdle segment = false) :
    counted [segment] = [String.ofList segment] := by
  simp [counted, hsegment]

theorem counted_of_idle {segments : List (List Char)}
    (hidle : ∀ segment ∈ segments, isIdle segment = true) : counted segments = [] := by
  simpa [counted, List.filter_eq_nil_iff] using hidle

theorem names_eq_counted (path : Path) :
    path.names = counted (Text.splitOn '/' path.text.toList) := by
  have hcounts : ∀ segment : List Char,
      (String.ofList segment != "" && String.ofList segment != ".") = !isIdle segment := by
    intro segment
    have hempty : (String.ofList segment == "") = (segment == []) := by
      rw [Bool.eq_iff_iff, beq_iff_eq, beq_iff_eq, ← String.toList_inj, String.toList_ofList]
      rfl
    have hdot : (String.ofList segment == ".") = (segment == ['.']) := by
      rw [Bool.eq_iff_iff, beq_iff_eq, beq_iff_eq, ← String.toList_inj, String.toList_ofList]
      rfl
    rw [isIdle, Bool.not_or, bne, bne, hempty, hdot]
  rw [names, Text.segments, counted, List.filter_map]
  congr 2
  funext segment
  exact hcounts segment

/-- The end of the names is a segment that only idle ones follow. -/
theorem exists_segments_of_names {path : Path} {directory : List String} {name : String}
    (hnames : path.names = directory ++ [name]) :
    ∃ before after, Text.splitOn '/' path.text.toList = before ++ name.toList :: after ∧
      counted before = directory ∧ ∀ segment ∈ after, isIdle segment = true := by
  rw [names_eq_counted, counted, List.map_eq_append_iff] at hnames
  obtain ⟨kept, last, hkept, hdirectory, hlast⟩ := hnames
  obtain ⟨segment, rfl, rfl⟩ := List.map_eq_singleton_iff.mp hlast
  obtain ⟨before, rest, hsplit, hbefore, hrest⟩ := List.filter_eq_append_iff.mp hkept
  obtain ⟨idle, after, rfl, hidle, -, hafter⟩ := List.filter_eq_cons_iff.mp hrest
  refine ⟨before ++ idle, after, ?_, ?_, ?_⟩
  · rw [hsplit, String.toList_ofList, List.append_assoc]
  · have hcounted : counted idle = [] := counted_of_idle (by simpa using hidle)
    rw [counted_append, hcounted, List.append_nil, counted, hbefore, hdirectory]
  · simpa [List.filter_eq_nil_iff] using hafter

/-- Of a name with an extension, the part before the last dot and the part after it. -/
theorem splitExtension_append {stem extension : List Char} (hstem : stem ≠ [])
    (hextension : '.' ∉ extension) :
    splitExtension (stem ++ '.' :: extension) = (stem, some extension) := by
  have hreverse : (stem ++ '.' :: extension).reverse =
      extension.reverse ++ '.' :: stem.reverse := by simp
  have hafter : (extension.reverse ++ '.' :: stem.reverse).takeWhile (· != '.') =
      extension.reverse := by
    have hends : ∀ c ∈ extension.reverse, (c != '.') = true := by
      intro c hc
      exact bne_iff_ne.mpr fun heq => hextension (heq ▸ List.mem_reverse.mp hc)
    rw [List.takeWhile_append_of_pos hends]
    simp
  obtain ⟨last, before, hlast⟩ := List.exists_cons_of_ne_nil (List.reverse_ne_nil_iff.mpr hstem)
  rw [splitExtension, hreverse, hafter, List.drop_left, hlast]
  dsimp only
  rw [← hlast, List.reverse_reverse, List.reverse_reverse]

theorem eq_of_splitExtension {name stem extension : List Char}
    (hname : splitExtension name = (stem, some extension)) :
    name = stem ++ '.' :: extension ∧ stem ≠ [] := by
  generalize hafter : name.reverse.takeWhile (· != '.') = after
  generalize hrest : name.reverse.dropWhile (· != '.') = rest
  have hreverse : after ++ rest = name.reverse := by
    rw [← hafter, ← hrest, List.takeWhile_append_dropWhile]
  have hdrop : name.reverse.drop after.length = rest := by rw [← hreverse, List.drop_left]
  have hfirst := List.head?_dropWhile_not (· != '.') name.reverse
  rw [hrest] at hfirst
  simp only [splitExtension, hafter, hdrop] at hname
  rcases rest with - | ⟨dot, - | ⟨last, before⟩⟩
  · cases hname
  · cases hname
  · obtain ⟨rfl, hsome⟩ := Prod.mk.inj hname
    obtain rfl := Option.some.inj hsome
    obtain rfl : dot = '.' := by simpa using hfirst
    refine ⟨?_, by simp⟩
    rw [← List.reverse_reverse name, ← hreverse]
    simp

/-- Only idle segments are dropped. -/
theorem dropIdleEnd_append {name : List Char} (hname : isIdle name = false)
    {after : List (List Char)} (hafter : ∀ segment ∈ after, isIdle segment = true)
    (before : List (List Char)) : dropIdleEnd (before ++ name :: after) = before ++ [name] := by
  induction after using List.reverseRecOn with
  | nil => exact List.rdropWhile_concat_neg _ _ _ (by simp [hname])
  | append_singleton after last ih =>
      rw [List.forall_mem_append, List.forall_mem_singleton] at hafter
      rw [← ih hafter.1, ← List.cons_append, ← List.append_assoc]
      exact List.rdropWhile_concat_pos _ _ _ hafter.2

theorem counted_dropIdleEnd (segments : List (List Char)) :
    counted (dropIdleEnd segments) = counted segments := by
  induction segments using List.reverseRecOn with
  | nil => rfl
  | append_singleton segments last ih =>
      by_cases hlast : isIdle last = true
      · have hidle : counted [last] = [] := counted_of_idle (by simpa using hlast)
        rw [counted_append, hidle, List.append_nil, ← ih]
        exact congrArg counted (List.rdropWhile_concat_pos _ _ _ hlast)
      · exact congrArg counted (List.rdropWhile_concat_neg _ _ _ hlast)

theorem isIdle_of_dropIdleEnd {segments inner : List (List Char)} {last : List Char}
    (hlast : dropIdleEnd segments = inner ++ [last]) : isIdle last = false := by
  have hkept : dropIdleEnd (inner ++ [last]) = inner ++ [last] := by
    rw [← hlast]
    exact List.rdropWhile_idempotent _ _
  have hend := List.rdropWhile_eq_self_iff.mp hkept (by simp)
  simpa using hend

theorem counted_splitFront (chars : List Char) :
    counted (Text.splitOn '/' (splitFront chars).2) = counted (Text.splitOn '/' chars) := by
  fun_cases splitFront chars with
  | case1 rest =>
      rw [Text.splitOn_separator_cons]
      rfl
  | case2 => rfl
  | case3 rest =>
      have hdot : Text.splitOn '/' ('.' :: '/' :: rest) = ['.'] :: Text.splitOn '/' rest :=
        Text.splitOn_append_separator ['.'] rest
      rw [hdot, Text.splitOn_separator_cons]
      rfl
  | case4 => rfl

theorem names_eq_counted_segments (path : Path) :
    path.names = counted path.frontAndSegments.2 := by
  rw [names_eq_counted, ← counted_splitFront, ← counted_dropIdleEnd]
  rfl

theorem exists_segments_of_fileName? {path : Path} {name : List Char}
    (hname : path.fileName? = some name) :
    ∃ inner, path.frontAndSegments.2 = inner ++ [name] ∧ isIdle name = false := by
  have hlast : path.frontAndSegments.2.getLast? = some name := by
    unfold fileName? at hname
    split at hname
    next => cases hname
    next => exact hname
  obtain ⟨inner, hinner⟩ := List.getLast?_eq_some_iff.mp hlast
  exact ⟨inner, hinner, isIdle_of_dropIdleEnd hinner⟩

theorem exists_names_of_fileName? {path : Path} {name : List Char}
    (hname : path.fileName? = some name) :
    ∃ directory, path.names = directory ++ [String.ofList name] := by
  obtain ⟨inner, hinner, hcounts⟩ := exists_segments_of_fileName? hname
  exact ⟨counted inner, by
    rw [names_eq_counted_segments, hinner, counted_append, counted_singleton hcounts]⟩

/-- A path has an extension only behind a name. -/
theorem exists_names_of_extension? {path : Path} {extension : String}
    (hextension : path.extension? = some extension) :
    ∃ directory stem, path.names = directory ++ [stem ++ "." ++ extension] ∧ stem ≠ "" := by
  obtain ⟨name, hname, hsplit⟩ := Option.bind_eq_some_iff.mp hextension
  obtain ⟨chars, hchars, rfl⟩ := Option.map_eq_some_iff.mp hsplit
  obtain ⟨directory, hdirectory⟩ := exists_names_of_fileName? hname
  obtain ⟨hstem, hne⟩ := eq_of_splitExtension (Prod.ext rfl hchars)
  refine ⟨directory, String.ofList (splitExtension name).1, ?_, ?_⟩
  · have htext : String.ofList name =
        String.ofList (splitExtension name).1 ++ "." ++ String.ofList chars := by
      apply String.toList_injective
      simpa using hstem
    rw [hdirectory, htext]
  · intro hempty
    exact hne (by simpa using congrArg String.toList hempty)

theorem splitOn_joinSegments {segments : List (List Char)}
    (hslash : ∀ segment ∈ segments, '/' ∉ segment) (hne : segments ≠ []) :
    Text.splitOn '/' (joinSegments segments) = segments := by
  rw [Text.splitOn_eq]
  exact List.splitOn_intercalate '/' hslash hne

theorem exists_eq_cons_of_idle {first name : List Char} {segments before after : List (List Char)}
    (hfirst : isIdle first = true) (hname : isIdle name = false)
    (hsegments : first :: segments = before ++ name :: after) :
    ∃ inner, before = first :: inner ∧ segments = inner ++ name :: after := by
  cases before with
  | nil =>
      obtain ⟨rfl, -⟩ := List.cons.inj hsegments
      rw [hname] at hfirst
      cases hfirst
  | cons other inner =>
      obtain ⟨rfl, hrest⟩ := List.cons.inj hsegments
      exact ⟨inner, rfl, hrest⟩

/-- With its front a path has the same segments as without, up to one that counts. -/
theorem exists_splitFront {chars name : List Char} {before after : List (List Char)}
    (hsplit : Text.splitOn '/' chars = before ++ name :: after) (hname : isIdle name = false) :
    ∃ inner, Text.splitOn '/' (splitFront chars).2 = inner ++ name :: after ∧
      ∀ other : List Char, '/' ∉ other →
        Text.splitOn '/' ((splitFront chars).1 ++ joinSegments (inner ++ [other])) =
          before ++ [other] := by
  have hslash : ∀ segment ∈ before, '/' ∉ segment := fun segment hsegment =>
    Text.not_mem_of_mem_splitOn (hsplit ▸ List.mem_append_left _ hsegment)
  have hjoined : ∀ inner : List (List Char), (∀ segment ∈ inner, segment ∈ before) →
      ∀ other : List Char, '/' ∉ other →
        Text.splitOn '/' (joinSegments (inner ++ [other])) = inner ++ [other] := by
    intro inner hinner other hother
    refine splitOn_joinSegments ?_ (by simp)
    rw [List.forall_mem_append, List.forall_mem_singleton]
    exact ⟨fun segment hsegment => hslash segment (hinner segment hsegment), hother⟩
  fun_cases splitFront chars with
  | case1 rest =>
      rw [Text.splitOn_separator_cons] at hsplit
      obtain ⟨inner, rfl, hrest⟩ := exists_eq_cons_of_idle rfl hname hsplit
      refine ⟨inner, hrest, fun other hother => ?_⟩
      rw [List.singleton_append, Text.splitOn_separator_cons,
        hjoined inner (fun _ => List.mem_cons_of_mem _) other hother]
      rfl
  | case2 =>
      obtain ⟨inner, -, hrest⟩ := exists_eq_cons_of_idle rfl hname hsplit
      simp at hrest
  | case3 rest =>
      -- The slash stays with the names, so that they start with an idle segment.
      have hdot : Text.splitOn '/' ('.' :: '/' :: rest) = ['.'] :: Text.splitOn '/' rest :=
        Text.splitOn_append_separator ['.'] rest
      rw [hdot] at hsplit
      obtain ⟨inner, rfl, hrest⟩ := exists_eq_cons_of_idle rfl hname hsplit
      refine ⟨[] :: inner, ?_, fun other hother => ?_⟩
      · rw [Text.splitOn_separator_cons, hrest]
        rfl
      · have hjoin : joinSegments ([] :: inner ++ [other]) =
            '/' :: joinSegments (inner ++ [other]) := by
          obtain ⟨next, others, hinner⟩ := List.exists_cons_of_ne_nil
            (List.append_ne_nil_of_right_ne_nil inner (List.cons_ne_nil other []))
          rw [List.cons_append, hinner, joinSegments, List.intercalate_cons_cons]
          rfl
        rw [hjoin, Text.splitOn_append_separator,
          hjoined inner (fun _ => List.mem_cons_of_mem _) other hother]
        rfl
  | case4 =>
      exact ⟨before, hsplit, hjoined before fun _ hsegment => hsegment⟩

variable {path : Path} {before after : List (List Char)}

/-- The segments in front of the last name stay when another one takes its place. -/
theorem exists_frontAndSegments {name : List Char}
    (hsplit : Text.splitOn '/' path.text.toList = before ++ name :: after)
    (hname : isIdle name = false) (hafter : ∀ segment ∈ after, isIdle segment = true) :
    ∃ front inner, path.frontAndSegments = (front, inner ++ [name]) ∧
      ∀ other : List Char, '/' ∉ other →
        Text.splitOn '/' (front ++ joinSegments (inner ++ [other])) = before ++ [other] := by
  obtain ⟨inner, hinner, hjoin⟩ := exists_splitFront hsplit hname
  refine ⟨(splitFront path.text.toList).1, inner, ?_, hjoin⟩
  rw [← dropIdleEnd_append hname hafter, ← hinner]
  rfl

theorem fileName?_of_segments {front name : List Char} {inner : List (List Char)}
    (hsegments : path.frontAndSegments = (front, inner ++ [name])) (habove : name ≠ ['.', '.']) :
    path.fileName? = some name := by
  rw [fileName?, hsegments, List.getLast?_concat]
  split
  next heq => exact absurd (Option.some.inj heq) habove
  next => rfl

/-- The last name is cut, and the idle segments after it are left out. -/
theorem splitOn_cutAtStem {name : List Char}
    (hsplit : Text.splitOn '/' path.text.toList = before ++ name :: after)
    (hname : isIdle name = false) (habove : name ≠ ['.', '.'])
    (hafter : ∀ segment ∈ after, isIdle segment = true)
    (hstem : '/' ∉ (splitExtension name).1) :
    Text.splitOn '/' path.cutAtStem.text.toList = before ++ [(splitExtension name).1] := by
  obtain ⟨front, inner, hsegments, hjoin⟩ := exists_frontAndSegments hsplit hname hafter
  rw [cutAtStem, fileName?_of_segments hsegments habove]
  simp only [hsegments, List.dropLast_concat, String.toList_ofList]
  exact hjoin _ hstem

theorem eq_or_exists_of_concat_eq {first last : List Char} {segments : List (List Char)}
    (hconcat : segments ++ [last] = before ++ first :: after) :
    (after = [] ∧ segments = before ∧ last = first) ∨
      ∃ inner, after = inner ++ [last] ∧ segments = before ++ first :: inner := by
  rcases List.eq_nil_or_concat after with rfl | ⟨inner, other, rfl⟩
  · obtain ⟨hsegments, hlast⟩ := List.append_inj' hconcat rfl
    exact .inl ⟨rfl, hsegments, List.singleton_inj.mp hlast⟩
  · rw [List.concat_eq_append, ← List.cons_append, ← List.append_assoc] at hconcat
    obtain ⟨hsegments, hlast⟩ := List.append_inj' hconcat rfl
    obtain rfl := List.singleton_inj.mp hlast
    exact .inr ⟨inner, List.concat_eq_append, hsegments⟩

/-- A text ends in the extension or in the idle segments after it. -/
theorem exists_splitOn_of_concat {chars stem extension : List Char} {c : Char}
    (hsplit : Text.splitOn '/' (chars ++ [c]) = before ++ (stem ++ '.' :: extension) :: after)
    (hafter : ∀ segment ∈ after, isIdle segment = true) (hextension : extension ≠ []) :
    ∃ kept idle, Text.splitOn '/' chars = before ++ (stem ++ '.' :: kept) :: idle ∧
      (∀ segment ∈ idle, isIdle segment = true) ∧
      kept <+: extension ∧ extension.length ≤ kept.length + 1 := by
  by_cases hc : c = '/'
  · subst hc
    -- A slash at the end has opened an empty segment.
    have hend : Text.splitOn '/' (chars ++ ['/']) = Text.splitOn '/' chars ++ [[]] :=
      Text.splitOn_append_separator chars []
    rw [hend] at hsplit
    rcases eq_or_exists_of_concat_eq hsplit with ⟨-, -, hempty⟩ | ⟨idle, rfl, hchars⟩
    · simp at hempty
    · refine ⟨extension, idle, hchars, fun segment hsegment => ?_, List.prefix_rfl, Nat.le_succ _⟩
      exact hafter segment (List.mem_append_left _ hsegment)
  · have hslash : '/' ∉ [c] := by simpa using Ne.symm hc
    obtain ⟨parts, last, hchars, happend⟩ := Text.exists_splitOn_append hslash chars
    rw [happend] at hsplit
    rcases eq_or_exists_of_concat_eq hsplit with ⟨-, rfl, hlast⟩ | ⟨idle, rfl, hparts⟩
    -- The character is the last one of the extension.
    · obtain ⟨kept, d, rfl⟩ := (List.eq_nil_or_concat extension).resolve_left hextension
      rw [List.concat_eq_append, ← List.cons_append, ← List.append_assoc] at hlast
      obtain ⟨hkept, -⟩ := List.append_inj' hlast rfl
      refine ⟨kept, [], by rw [hchars, hkept], by simp, ?_, by simp⟩
      exact ⟨[d], List.concat_eq_append.symm⟩
    · refine ⟨extension, idle ++ [last], ?_, ?_, List.prefix_rfl, Nat.le_succ _⟩
      · rw [hchars, hparts, List.append_assoc, List.cons_append]
      · rw [List.forall_mem_append, List.forall_mem_singleton] at hafter ⊢
        -- The character is the dot of an idle segment.
        obtain ⟨hidle, hlast⟩ := hafter
        obtain rfl : last = [] := by
          rw [isIdle, Bool.or_eq_true, beq_iff_eq, beq_iff_eq] at hlast
          rcases hlast with hlast | hlast
          · simp at hlast
          · exact (List.append_inj' (hlast.trans (List.nil_append ['.']).symm) rfl).1
        exact ⟨hidle, rfl⟩

/-- Taking away as many characters as the extension has leaves the stem and its dot. -/
theorem exists_splitOn_take {chars stem extension : List Char} {count : Nat}
    (hsplit : Text.splitOn '/' chars = before ++ (stem ++ '.' :: extension) :: after)
    (hafter : ∀ segment ∈ after, isIdle segment = true) (hcount : count ≤ extension.length) :
    ∃ kept idle, Text.splitOn '/' (chars.take (chars.length - count)) =
        before ++ (stem ++ '.' :: kept) :: idle ∧
      (∀ segment ∈ idle, isIdle segment = true) ∧ kept <+: extension := by
  induction count generalizing chars extension after with
  | zero => exact ⟨extension, after, by simpa using hsplit, hafter, List.prefix_rfl⟩
  | succ count ih =>
      have hextension : extension ≠ [] := List.ne_nil_of_length_pos (by omega)
      rcases List.eq_nil_or_concat chars with rfl | ⟨front, c, rfl⟩
      · cases before <;> simp [Text.splitOn] at hsplit
      rw [List.concat_eq_append] at hsplit ⊢
      obtain ⟨kept, idle, hfront, hidle, hkept, hlength⟩ :=
        exists_splitOn_of_concat hsplit hafter hextension
      obtain ⟨kept', idle', htake, hidle', hkept'⟩ := ih hfront hidle (by omega)
      refine ⟨kept', idle', ?_, hidle', hkept'.trans hkept⟩
      rw [← htake]
      congr 1
      rw [List.length_append, List.length_singleton, Nat.add_sub_add_right]
      exact List.take_append_of_le_length (Nat.sub_le _ _)

theorem isIdle_append_dot {stem : List Char} (hstem : stem ≠ []) (extension : List Char) :
    isIdle (stem ++ '.' :: extension) = false := by
  obtain ⟨c, rest, rfl⟩ := List.exists_cons_of_ne_nil hstem
  simp [isIdle]

theorem append_dot_ne_above {stem : List Char} (hempty : stem ≠ []) (hdot : stem ≠ ['.'])
    (extension : List Char) : stem ++ '.' :: extension ≠ ['.', '.'] := by
  obtain ⟨c, rest, rfl⟩ := List.exists_cons_of_ne_nil hempty
  cases rest with
  | nil =>
      intro heq
      obtain rfl : c = '.' := (List.cons.inj heq).1
      exact hdot rfl
  | cons d rest => simp

theorem extension?_eq_some {stem extension : List Char}
    (hsplit : Text.splitOn '/' path.text.toList =
      before ++ (stem ++ '.' :: extension) :: after)
    (hafter : ∀ segment ∈ after, isIdle segment = true)
    (hempty : stem ≠ []) (hdot : stem ≠ ['.']) (hextension : '.' ∉ extension) :
    path.extension? = some (String.ofList extension) := by
  obtain ⟨front, inner, hsegments, -⟩ :=
    exists_frontAndSegments hsplit (isIdle_append_dot hempty extension) hafter
  rw [extension?, fileName?_of_segments hsegments (append_dot_ne_above hempty hdot extension),
    Option.bind_some, splitExtension_append hempty hextension]
  rfl

theorem splitOn_dropExtension {stem extension : List Char}
    (hsplit : Text.splitOn '/' path.text.toList =
      before ++ (stem ++ '.' :: extension) :: after)
    (hafter : ∀ segment ∈ after, isIdle segment = true)
    (hempty : stem ≠ []) (hdot : stem ≠ ['.']) (hextension : '.' ∉ extension) :
    Text.splitOn '/' path.dropExtension.text.toList = before ++ [stem] := by
  obtain ⟨kept, idle, htake, hidle, hkept⟩ := exists_splitOn_take hsplit hafter le_rfl
  -- Whatever is left of the extension goes when the name is cut at its last dot.
  have hkeptDot : '.' ∉ kept := fun hmem => hextension (hkept.subset hmem)
  have hstem : splitExtension (stem ++ '.' :: kept) = (stem, some kept) :=
    splitExtension_append hempty hkeptDot
  have hslash : '/' ∉ stem ++ '.' :: extension :=
    Text.not_mem_of_mem_splitOn (hsplit ▸ List.mem_append_right _ List.mem_cons_self)
  rw [dropExtension, extension?_eq_some hsplit hafter hempty hdot hextension]
  rw [← String.toList_ofList
    (l := path.text.toList.take (path.text.toList.length - extension.length))] at htake
  have hcut := splitOn_cutAtStem htake (isIdle_append_dot hempty kept)
    (append_dot_ne_above hempty hdot kept) hidle
  rw [hstem, String.length_toList] at hcut
  simp only [Option.getD_some, String.length_ofList]
  exact hcut fun hmem => hslash (List.mem_append_left _ hmem)

/-- An absolute path starts with an empty segment. -/
theorem isAbsolute_eq_of_splitOn {name : List Char} (hname : name ≠ [])
    (hsplit : Text.splitOn '/' path.text.toList = before ++ name :: after) :
    path.isAbsolute = (before.head? == some []) := by
  rw [isAbsolute]
  cases hchars : path.text.toList with
  | nil =>
      rw [hchars] at hsplit
      cases before <;> simp [Text.splitOn, Ne.symm hname] at hsplit
  | cons c rest =>
      rw [hchars] at hsplit
      by_cases hc : c = '/'
      · subst hc
        rw [Text.splitOn_separator_cons] at hsplit
        cases before with
        | nil => exact absurd (List.cons.inj hsplit).1.symm hname
        | cons first others =>
            obtain ⟨rfl, -⟩ := List.cons.inj hsplit
            rfl
      · obtain ⟨first, others, hfirst⟩ : ∃ first others,
            Text.splitOn '/' (c :: rest) = (c :: first) :: others := by
          rw [Text.splitOn, if_neg hc]
          cases Text.splitOn '/' rest with
          | nil => exact ⟨[], [], rfl⟩
          | cons first others => exact ⟨first, others, rfl⟩
        rw [hfirst] at hsplit
        cases before with
        | nil => simpa using hc
        | cons other inner =>
            obtain ⟨rfl, -⟩ := List.cons.inj hsplit
            simp [hc]

/-- Behind a name there is an extension, and it may be dropped. -/
theorem dropExtension_of_names {directory : List String} {stem extension : String}
    (hnames : path.names = directory ++ [stem ++ "." ++ extension])
    (hempty : stem ≠ "") (hdot : stem ≠ ".") (hextension : '.' ∉ extension.toList) :
    path.extension? = some extension ∧ path.dropExtension.names = directory ++ [stem] ∧
      path.dropExtension.isAbsolute = path.isAbsolute := by
  obtain ⟨before, after, hsplit, hbefore, hafter⟩ := exists_segments_of_names hnames
  have hname : (stem ++ "." ++ extension).toList = stem.toList ++ '.' :: extension.toList := by
    simp
  have hstem : stem.toList ≠ [] := fun heq => hempty (String.toList_eq_nil_iff.mp heq)
  have hstemDot : stem.toList ≠ ['.'] := fun heq => hdot (String.toList_injective heq)
  rw [hname] at hsplit
  have hdropped := splitOn_dropExtension hsplit hafter hstem hstemDot hextension
  refine ⟨?_, ?_, ?_⟩
  · rw [extension?_eq_some hsplit hafter hstem hstemDot hextension, String.ofList_toList]
  · have hcounts : isIdle stem.toList = false := by simp [isIdle, hstem, hstemDot]
    rw [names_eq_counted, hdropped, counted_append, hbefore, counted_singleton hcounts,
      String.ofList_toList]
  · rw [isAbsolute_eq_of_splitOn hstem hdropped,
      isAbsolute_eq_of_splitOn (by simp) hsplit]

theorem splitExtension_ne_nil {name : List Char} (hname : name ≠ []) :
    (splitExtension name).1 ≠ [] := by
  rw [splitExtension]
  split
  next => exact hname
  next => exact hname
  next dot before hbefore hrest => simpa using hbefore

theorem joinSegments_concat_ne_nil (segments : List (List Char)) {last : List Char}
    (hlast : last ≠ []) : joinSegments (segments ++ [last]) ≠ [] := by
  rcases segments with _ | ⟨first, _ | ⟨second, others⟩⟩
  · simpa [joinSegments] using hlast
  · simp [joinSegments]
  · simp [joinSegments]

theorem cutAtStem_ne_empty (hpath : path.text ≠ "") : path.cutAtStem.text ≠ "" := by
  unfold cutAtStem
  split
  next => exact hpath
  next name hname =>
    obtain ⟨inner, -, hidle⟩ := exists_segments_of_fileName? hname
    have hne : name ≠ [] := by
      rintro rfl
      cases hidle
    have hjoined := joinSegments_concat_ne_nil path.frontAndSegments.2.dropLast
      (splitExtension_ne_nil hne)
    simp [hjoined]

/-- Something is left of a path when its extension is dropped. -/
theorem dropExtension_ne_empty {extension : String}
    (hextension : path.extension? = some extension) : path.dropExtension.text ≠ "" := by
  obtain ⟨directory, stem, hnames, hstem⟩ := exists_names_of_extension? hextension
  obtain ⟨before, after, hsplit, -, hafter⟩ := exists_segments_of_names hnames
  have hname : (stem ++ "." ++ extension).toList = stem.toList ++ '.' :: extension.toList := by
    simp
  rw [hname] at hsplit
  obtain ⟨kept, idle, htake, -, -⟩ := exists_splitOn_take hsplit hafter le_rfl
  rw [dropExtension, hextension]
  refine cutAtStem_ne_empty fun hempty => ?_
  have hchars : path.text.toList.take (path.text.toList.length - extension.toList.length) = [] := by
    simpa [String.length_toList] using hempty
  rw [hchars] at htake
  -- No segment of nothing has a dot.
  cases before <;> simp [Text.splitOn] at htake

end Path

end TrackingPlan
