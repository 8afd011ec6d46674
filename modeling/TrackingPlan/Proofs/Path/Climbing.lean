import TrackingPlan.Proofs.Path.Location

/-!
# Ways of names

Names that are followed one after the other lead so many steps up, and down from
there, whatever the directory is that they are followed from. A way that does
not climb stays below every directory, and no other way does.
-/

namespace TrackingPlan

namespace Path

/-- The shortest way that leads where names do. -/
structure Way where
  up : Nat
  down : List String
  deriving DecidableEq, Repr

namespace Way

/-- One name more: `..` leaves the last name of the way down, or climbs if there is none. -/
def step (way : Way) (name : String) : Way :=
  if name = ".." then
    match way.down with
    | [] => ⟨way.up + 1, []⟩
    | _ :: _ => { way with down := way.down.dropLast }
  else { way with down := way.down ++ [name] }

def ofNames (names : List String) : Way := names.foldl step ⟨0, []⟩

/-- Where a way leads from a directory, from which it climbs at most to the root. -/
def follow (way : Way) (directory : List String) : List String :=
  directory.take (directory.length - way.up) ++ way.down

theorem follow_step (way : Way) (name : String) (directory : List String) :
    (way.step name).follow directory = Path.follow (way.follow directory) [name] := by
  obtain ⟨up, down⟩ := way
  unfold step
  by_cases hname : name = ".."
  · subst hname
    rw [if_pos rfl, follow_upwards]
    cases down with
    | nil =>
        simp only [follow, List.append_nil]
        rw [List.dropLast_eq_take, List.take_take, List.length_take]
        congr 1
        omega
    | cons first rest =>
        simp only [follow]
        rw [List.dropLast_append_of_ne_nil (List.cons_ne_nil _ _)]
  · rw [if_neg hname, follow_singleton _ hname]
    exact (List.append_assoc ..).symm

theorem follow_foldl (names : List String) (way : Way) (directory : List String) :
    (names.foldl step way).follow directory = Path.follow (way.follow directory) names := by
  induction names generalizing way with
  | nil => rfl
  | cons name rest ih =>
      rw [List.foldl_cons, ih, follow_step, ← follow_append]
      rfl

/-- A name that leads down is the last one of the way. -/
theorem down_ofNames_concat (names : List String) {name : String} (hname : name ≠ "..") :
    ∃ before, (ofNames (names ++ [name])).down = before ++ [name] := by
  refine ⟨(ofNames names).down, ?_⟩
  rw [ofNames, List.foldl_append, List.foldl_cons, List.foldl_nil, step, if_neg hname]
  rfl

theorem ofNames_of_not_mem {names : List String} (hnames : ".." ∉ names) :
    ofNames names = ⟨0, names⟩ := by
  induction names using List.reverseRecOn with
  | nil => rfl
  | append_singleton names name ih =>
      rw [List.mem_append, not_or, List.mem_singleton] at hnames
      rw [ofNames, List.foldl_append, ← ofNames, ih hnames.1]
      exact if_neg (Ne.symm hnames.2)

end Way

/-- Names lead where their way does. -/
theorem follow_eq (directory names : List String) :
    follow directory names = (Way.ofNames names).follow directory := by
  rw [Way.ofNames, Way.follow_foldl]
  simp [Way.follow]

/-- The location is in the directory or further down. -/
def IsBelow (directory location : List String) : Prop :=
  ∃ more, more ≠ [] ∧ location = directory ++ more

namespace Way

variable {way : Way}

theorem follow_of_up_eq_zero (hup : way.up = 0) (directory : List String) :
    way.follow directory = directory ++ way.down := by
  rw [follow, hup, Nat.sub_zero, List.take_length]

/-- From a directory with one name, what climbs is below only if it comes down there again. -/
theorem up_eq_zero_or_of_isBelow {name : String} (hbelow : IsBelow [name] (way.follow [name])) :
    way.up = 0 ∨ way.down.head? = some name := by
  obtain ⟨up, down⟩ := way
  cases up with
  | zero => exact .inl rfl
  | succ up =>
      right
      obtain ⟨more, -, hmore⟩ := hbelow
      have htop : [name].length - (up + 1) = 0 := by simp
      rw [follow, htop, List.take_zero, List.nil_append] at hmore
      rw [hmore]
      rfl

/-- A way that stays below two directories next to each other does not climb. -/
theorem up_eq_zero_of_isBelow {first second : String} (hne : first ≠ second)
    (hfirst : IsBelow [first] (way.follow [first]))
    (hsecond : IsBelow [second] (way.follow [second])) : way.up = 0 := by
  rcases up_eq_zero_or_of_isBelow hfirst with hup | hdown
  · exact hup
  · rcases up_eq_zero_or_of_isBelow hsecond with hup | hother
    · exact hup
    · exact absurd (Option.some.inj (hdown.symm.trans hother)) hne

end Way

end Path

end TrackingPlan
