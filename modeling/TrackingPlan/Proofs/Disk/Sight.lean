import Mathlib.Data.List.Basic
import TrackingPlan.Disk.FileTree

/-!
# What is at a location

There is a file at a location, or a directory, or nothing. Only what is in
directories can be seen, and putting an entry somewhere in a directory changes
what is seen from there on and nothing else.
-/

namespace TrackingPlan

/-- What can be seen of an entry without looking into it. -/
inductive Sight where
  | nothing
  | directory
  | file (contents : Contents)
  deriving DecidableEq, Repr

namespace Sight

def ofEntry : Option Entry → Sight
  | none => nothing
  | some (.directory _) => directory
  | some (.file contents) => file contents

/-- What the file holds, if there is one. -/
def contents? : Sight → Option Contents
  | file contents => some contents
  | _ => none

end Sight

namespace Entry

/-- What there is at a location below the entry. -/
def look (entry : Entry) (location : List String) : Sight := .ofEntry (entry.get? location)

theorem look_cons (entries : List (String × Entry)) (name : String) (rest : List String) :
    (directory entries).look (name :: rest) =
      match entries.lookup name with
      | some entry => entry.look rest
      | none => .nothing := by
  unfold look
  rw [get?]
  cases entries.lookup name <;> rfl

/-- What can be seen is in a directory, and that directory as well. -/
theorem look_of_look_append {entry : Entry} {location more : List String} (hmore : more ≠ [])
    (hlook : entry.look (location ++ more) ≠ .nothing) : entry.look location = .directory := by
  induction location generalizing entry with
  | nil =>
      obtain ⟨name, rest, rfl⟩ := List.exists_cons_of_ne_nil hmore
      cases entry with
      | file contents => exact absurd rfl hlook
      | directory entries => rfl
  | cons name rest ih =>
      cases entry with
      | file contents => exact absurd rfl hlook
      | directory entries =>
          rw [List.cons_append, look_cons] at hlook
          rw [look_cons]
          cases hname : entries.lookup name with
          | none =>
              rw [hname] at hlook
              exact absurd rfl hlook
          | some below =>
              rw [hname] at hlook
              exact ih hlook

theorem lookup_map_eq {f : Entry → Entry} (name : String) (entries : List (String × Entry)) :
    (entries.map fun entry => if entry.1 = name then (name, f entry.2) else entry).lookup name =
      (entries.lookup name).map f := by
  induction entries with
  | nil => rfl
  | cons entry rest ih =>
      obtain ⟨first, below⟩ := entry
      by_cases hname : first = name
      · simp [hname]
      · have hother : (name == first) = false := by simpa using Ne.symm hname
        simp [List.lookup_cons, hname, hother, ih]

theorem lookup_map_ne {f : Entry → Entry} {name other : String} (hother : other ≠ name)
    (entries : List (String × Entry)) :
    (entries.map fun entry => if entry.1 = name then (name, f entry.2) else entry).lookup other =
      entries.lookup other := by
  induction entries with
  | nil => rfl
  | cons entry rest ih =>
      obtain ⟨first, below⟩ := entry
      by_cases hname : first = name
      · have hfirst : (other == name) = false := by simpa using hother
        simp [List.lookup_cons, hname, hfirst, ih]
      · simp only [List.map_cons, hname, if_false, List.lookup_cons, ih]

theorem lookup_concat (entries : List (String × Entry)) (name other : String) (new : Entry) :
    (entries ++ [(name, new)]).lookup other =
      (entries.lookup other).or (if other = name then some new else none) := by
  induction entries with
  | nil =>
      by_cases hother : other = name
      · simp [hother]
      · have hname : (other == name) = false := by simpa using hother
        simp [List.lookup_cons, hother, hname]
  | cons entry rest ih =>
      obtain ⟨first, below⟩ := entry
      cases hfirst : other == first with
      | true => simp [List.lookup_cons, hfirst]
      | false => simp [List.lookup_cons, hfirst, ih]

/-- What is put into a directory can be seen there. -/
theorem look_put_append {entry : Entry} (new : Entry) {location : List String}
    (hne : location ≠ []) (hparent : entry.look location.dropLast = .directory)
    (more : List String) : (put new location entry).look (location ++ more) = new.look more := by
  induction location generalizing entry with
  | nil => exact absurd rfl hne
  | cons name rest ih =>
      cases entry with
      | file contents =>
          cases rest with
          | nil => cases hparent
          | cons next rest => cases hparent
      | directory entries =>
          cases rest with
          | nil =>
              cases hname : entries.lookup name with
              | none =>
                  simp only [put, hname, Option.isSome_none, Bool.false_eq_true, if_false,
                    List.cons_append, List.nil_append]
                  rw [look_cons, lookup_concat, hname]
                  simp
              | some old =>
                  simp only [put, hname, Option.isSome_some, if_true, List.cons_append,
                    List.nil_append]
                  rw [look_cons, lookup_map_eq (f := fun _ => new), hname]
                  rfl
          | cons next rest =>
              rw [List.dropLast_cons_of_ne_nil (List.cons_ne_nil _ _), look_cons] at hparent
              -- The way goes on in a directory that is there, because the parent is seen.
              rw [put, List.cons_append, look_cons, lookup_map_eq (f := put new (next :: rest))]
              cases hname : entries.lookup name with
              | none =>
                  rw [hname] at hparent
                  cases hparent
              | some below =>
                  rw [hname] at hparent
                  exact ih (List.cons_ne_nil _ _) hparent

/-- What is not at or below the location stays as it is. -/
theorem look_put_of_not_isPrefix {entry : Entry} (new : Entry) {location other : List String}
    (hother : ¬ location <+: other) : (put new location entry).look other = entry.look other := by
  induction location generalizing entry other with
  | nil => exact absurd List.nil_prefix hother
  | cons name rest ih =>
      cases entry with
      | file contents => cases rest <;> rfl
      | directory entries =>
          cases other with
          | nil =>
              cases rest with
              | nil =>
                  unfold put
                  split <;> rfl
              | cons next rest => rfl
          | cons first others =>
              cases rest with
              | nil =>
                  have hfirst : first ≠ name := by
                    rintro rfl
                    exact hother ⟨others, rfl⟩
                  unfold put
                  split
                  · rw [look_cons, look_cons, lookup_map_ne (f := fun _ => new) hfirst]
                  · rw [look_cons, look_cons, lookup_concat, if_neg hfirst, Option.or_none]
              | cons next rest =>
                  rw [put, look_cons, look_cons]
                  by_cases hfirst : first = name
                  · subst hfirst
                    have hrest : ¬ next :: rest <+: others := fun hprefix =>
                      hother (List.cons_prefix_cons.mpr ⟨rfl, hprefix⟩)
                    rw [lookup_map_eq (f := put new (next :: rest))]
                    cases entries.lookup first with
                    | none => rfl
                    | some below => exact ih hrest
                  · rw [lookup_map_ne (f := put new (next :: rest)) hfirst]

/-- There is no file in directories within each other. -/
theorem contents?_look_nested (names location : List String) :
    ((nested names).look location).contents? = none := by
  induction names generalizing location with
  | nil => cases location <;> rfl
  | cons name rest ih =>
      cases location with
      | nil => rfl
      | cons first more =>
          rw [nested, look_cons, List.lookup_cons]
          cases first == name with
          | false => rfl
          | true => exact ih more

end Entry

end TrackingPlan
