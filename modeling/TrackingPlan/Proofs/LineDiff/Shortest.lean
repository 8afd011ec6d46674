import TrackingPlan.Proofs.LineDiff.Meeting
import TrackingPlan.Proofs.LineDiff.Tidy

/-!
# Edits between ranges

What two ranges have in common at their ends is kept, and the rest is divided where
the searches meet. Both parts are smaller than the whole, so the depth that is given
is enough, and the edits lead from one end of the ranges to the other.
-/

namespace TrackingPlan.LineDiff

variable {old new : Array String} {i j : Nat}

theorem isScript_keepSome {count : Nat} (hsame : SameLines old new i j count) :
    IsScript old new i j (keepSome i j count) (i + count) (j + count) := by
  unfold keepSome
  split
  next hzero => rw [hzero]; exact .nil i j
  next => exact .keep hsame (.nil _ _)

theorem isScript_drop {stop : Nat} (hstop : i ≤ stop) :
    IsScript old new i j [.drop i (stop - i)] stop j := by
  have hplace : i + (stop - i) = stop := Nat.add_sub_cancel' hstop
  exact .drop (hplace.symm ▸ .nil stop j)

theorem isScript_add {stop : Nat} (hstop : j ≤ stop) :
    IsScript old new i j [.add j (stop - j)] i stop := by
  have hplace : j + (stop - j) = stop := Nat.add_sub_cancel' hstop
  exact .add (hplace.symm ▸ .nil i stop)

theorem Range.isEmpty_iff {range : Range} : range.isEmpty = true ↔ range.stop ≤ range.start :=
  decide_eq_true_iff

/-- What is left of two ranges without what they have in common at their ends. -/
structure Trims (old new : Array String) (a b inner innerNew : Range) (before after : Nat) :
    Prop where
  start_eq : inner.start = a.start + before
  start_eq_new : innerNew.start = b.start + before
  stop_eq : inner.stop + after = a.stop
  stop_eq_new : innerNew.stop + after = b.stop
  le : inner.start ≤ inner.stop
  le_new : innerNew.start ≤ innerNew.stop
  same_start : SameLines old new a.start b.start before
  same_stop : SameLines old new inner.stop innerNew.stop after
  apart : inner.start < inner.stop → innerNew.start < innerNew.stop → Apart old new inner innerNew

/-- The lines in common are taken off at the start first. -/
theorem trims_common {a b : Range} (ha : a.start ≤ a.stop) (hb : b.start ≤ b.stop)
    {before after : Nat} (hbefore : before = commonStart old new a b)
    (hafter : after =
      commonEnd old new ⟨a.start + before, a.stop⟩ ⟨b.start + before, b.stop⟩) :
    Trims old new a b ⟨a.start + before, a.stop - after⟩ ⟨b.start + before, b.stop - after⟩
      before after := by
  obtain ⟨hle, hle', hsame, hnext⟩ := @commonStart_spec old new a b
  obtain ⟨hend, hend', hsame', hprevious⟩ :=
    @commonEnd_spec old new ⟨a.start + before, a.stop⟩ ⟨b.start + before, b.stop⟩
  rw [← hbefore] at hle hle' hsame hnext
  rw [← hafter] at hend hend' hsame' hprevious
  simp only [Range.size] at hle hle' hnext hend hend' hprevious
  constructor
  case start_eq | start_eq_new => rfl
  case same_start => exact hsame
  case same_stop => exact hsame'
  case apart =>
    intro (hlt : a.start + before < a.stop - after) (hlt' : b.start + before < b.stop - after)
    exact ⟨hlt, hlt', hnext (by omega) (by omega), hprevious (by omega) (by omega)⟩
  all_goals
    dsimp only
    omega

/-- Each part of ranges that are divided is smaller than the whole. -/
theorem Divides.size_lt {a b : Range} {x y : Nat} (hdivides : Divides a b (x, y)) :
    (⟨a.start, x⟩ : Range).size + (⟨b.start, y⟩ : Range).size < a.size + b.size ∧
      (⟨x, a.stop⟩ : Range).size + (⟨y, b.stop⟩ : Range).size < a.size + b.size := by
  obtain ⟨hxle, hlex, hyle, hley, hstart, hstop⟩ := hdivides
  simp only [Range.size] at *
  omega

theorem isScript_editsBetween {fuel : Nat} {a b : Range} (ha : a.start ≤ a.stop)
    (hb : b.start ≤ b.stop) (hfuel : a.size + b.size < fuel) :
    IsScript old new a.start b.start (editsBetween old new fuel a b) a.stop b.stop := by
  induction fuel generalizing a b with
  | zero => cases hfuel
  | succ fuel ih =>
      unfold editsBetween
      extract_lets before a' b' after inner innerNew edits
      obtain ⟨hstart, hstart', hstop, hstop', hle, hle', hsame, hsame', hapart⟩ :
          Trims old new a b inner innerNew before after :=
        trims_common ha hb rfl rfl
      have hedits : IsScript old new inner.start innerNew.start edits inner.stop innerNew.stop := by
        simp only [edits, Bool.and_eq_true, Range.isEmpty_iff]
        split
        next hempty =>
          rw [Nat.le_antisymm hle hempty.1, Nat.le_antisymm hle' hempty.2]
          exact .nil _ _
        split
        next hempty =>
          rw [Nat.le_antisymm hle' hempty]
          exact isScript_drop hle
        split
        next hempty =>
          rw [Nat.le_antisymm hle hempty]
          exact isScript_add hle'
        next hsome hsome' =>
          split
          next x y hmeets =>
            have hdivides :=
              divides_meeting? (hapart (Nat.not_le.mp hsome') (Nat.not_le.mp hsome)) hmeets
            have hsizes := hdivides.size_lt
            have hinner : inner.size + innerNew.size < fuel + 1 := by
              simp only [Range.size] at hfuel ⊢
              omega
            have hfirst := @ih ⟨inner.start, x⟩ ⟨innerNew.start, y⟩ hdivides.start_le
              hdivides.start_le_new (by omega)
            have hsecond := @ih ⟨x, inner.stop⟩ ⟨y, innerNew.stop⟩ hdivides.le_stop
              hdivides.le_stop_new (by omega)
            exact hfirst.append hsecond
          next => exact (isScript_drop hle).append (isScript_add hle')
      have hlast := isScript_keepSome hsame'
      have hfirst := isScript_keepSome hsame
      rw [hstop, hstop'] at hlast
      rw [← hstart, ← hstart'] at hfirst
      exact (hfirst.append hedits).append hlast

/-- Shortest edits are a script between the sequences. -/
theorem isScript_shortestEdits (old new : Array String) :
    IsScript old new 0 0 (shortestEdits old new) old.size new.size :=
  @isScript_editsBetween old new _ ⟨0, old.size⟩ ⟨0, new.size⟩ (Nat.zero_le _) (Nat.zero_le _)
    (Nat.lt_succ_self _)

theorem isScript_edits (old new : Array String) :
    IsScript old new 0 0 (edits old new) old.size new.size :=
  (isScript_shortestEdits old new).tidy

end TrackingPlan.LineDiff
