import TrackingPlan.Proofs.LineDiff.Script

/-!
# Tidied scripts

A step up or down exchanges an edit with the one next to it, moves an addition past
lines that end or start like it, or joins two edits. None of them changes where the
edits lead, so tidied edits are a script wherever the edits were one.
-/

namespace TrackingPlan.LineDiff

variable {old new : Array String} {i j i' j' : Nat} {rest : List Edit}

section Heads

theorem isScript_keep_iff {o n count : Nat} :
    IsScript old new i j (.keep o n count :: rest) i' j' ↔
      o = i ∧ n = j ∧ SameLines old new i j count ∧
        IsScript old new (i + count) (j + count) rest i' j' := by
  constructor
  · rintro ⟨⟩
    next hsame hrest => exact ⟨rfl, rfl, hsame, hrest⟩
  · rintro ⟨rfl, rfl, hsame, hrest⟩
    exact .keep hsame hrest

theorem isScript_drop_iff {start count : Nat} :
    IsScript old new i j (.drop start count :: rest) i' j' ↔
      start = i ∧ IsScript old new (i + count) j rest i' j' := by
  constructor
  · rintro ⟨⟩
    next hrest => exact ⟨rfl, hrest⟩
  · rintro ⟨rfl, hrest⟩
    exact .drop hrest

theorem isScript_add_iff {start count : Nat} :
    IsScript old new i j (.add start count :: rest) i' j' ↔
      start = j ∧ IsScript old new i (j + count) rest i' j' := by
  constructor
  · rintro ⟨⟩
    next hrest => exact ⟨rfl, hrest⟩
  · rintro ⟨rfl, hrest⟩
    exact .add hrest

theorem isScript_keep_zero_iff {o n : Nat} :
    IsScript old new i j (.keep o n 0 :: rest) i' j' ↔
      o = i ∧ n = j ∧ IsScript old new i j rest i' j' := by
  rw [isScript_keep_iff]
  simp [SameLines]

theorem isScript_swap_iff {start count startNew countNew : Nat} :
    IsScript old new i j (.drop start count :: .add startNew countNew :: rest) i' j' ↔
      IsScript old new i j (.add startNew countNew :: .drop start count :: rest) i' j' := by
  simp only [isScript_drop_iff, isScript_add_iff]
  constructor
  · rintro ⟨hdrop, hadd, hrest⟩
    exact ⟨hadd, hdrop, hrest⟩
  · rintro ⟨hadd, hdrop, hrest⟩
    exact ⟨hdrop, hadd, hrest⟩

theorem IsScript.joinDrops {start count next size : Nat}
    (hscript : IsScript old new i j (.drop start count :: .drop next size :: rest) i' j') :
    IsScript old new i j (.drop start (count + size) :: rest) i' j' := by
  simp only [isScript_drop_iff] at hscript ⊢
  exact ⟨hscript.1, Nat.add_assoc i _ _ ▸ hscript.2.2⟩

theorem IsScript.joinAdds {start count next size : Nat}
    (hscript : IsScript old new i j (.add start count :: .add next size :: rest) i' j') :
    IsScript old new i j (.add start (count + size) :: rest) i' j' := by
  simp only [isScript_add_iff] at hscript ⊢
  exact ⟨hscript.1, Nat.add_assoc j _ _ ▸ hscript.2.2⟩

end Heads

section Moves

/-- Kept lines in front of edits join those that the edits start with. -/
theorem IsScript.growLeft {o n count : Nat}
    (hscript : IsScript old new i j (.keep (o - count) (n - count) count :: rest) i' j') :
    IsScript old new i j (growLeft o n count rest) i' j' := by
  unfold LineDiff.growLeft
  split
  next next nextNew size others =>
    simp only [isScript_keep_iff] at hscript ⊢
    obtain ⟨rfl, rfl, hsame, rfl, rfl, hnext, hrest⟩ := hscript
    rw [Nat.add_sub_cancel, Nat.add_sub_cancel, Nat.add_comm size]
    refine ⟨rfl, rfl, hsame.add hnext, ?_⟩
    rwa [← Nat.add_assoc, ← Nat.add_assoc]
  next => exact hscript

/-- Kept lines behind edits join those that the edits end with. -/
theorem IsScript.growRight {o n count : Nat} {before : List Edit}
    (hscript : IsScript old new i j (before.reverse ++ .keep o n count :: rest) i' j') :
    IsScript old new i j ((LineDiff.growRight o n count before).reverse ++ rest) i' j' := by
  unfold LineDiff.growRight
  split
  next last lastNew size others =>
    rw [List.reverse_cons, List.append_assoc] at hscript ⊢
    obtain ⟨m, k, hothers, hlast⟩ := hscript.exists_of_append
    refine hothers.append ?_
    simp only [List.singleton_append, isScript_keep_iff] at hlast ⊢
    obtain ⟨rfl, rfl, hsame, rfl, rfl, hnext, hrest⟩ := hlast
    refine ⟨rfl, rfl, hsame.add hnext, ?_⟩
    rwa [← Nat.add_assoc, ← Nat.add_assoc]
  next => rwa [List.reverse_cons, List.append_assoc]

/-- An addition moves up past kept lines that end like it. -/
theorem IsScript.addUp {o n size start count shared : Nat}
    (hscript : IsScript old new i j (.keep o n size :: .add start count :: rest) i' j')
    (hshared : commonEnd old new ⟨o, o + size⟩ ⟨start, start + count⟩ = shared) :
    IsScript old new i j
      (.keep o n (size - shared) :: .add (start - shared) count ::
        LineDiff.growLeft (o + size) (start + count) shared rest) i' j' := by
  obtain ⟨hsize, hcount, hend, -⟩ := @commonEnd_spec old new ⟨o, o + size⟩ ⟨start, start + count⟩
  simp only [Range.size, hshared, Nat.add_sub_cancel_left] at hsize hcount hend
  simp only [isScript_keep_iff, isScript_add_iff] at hscript ⊢
  obtain ⟨rfl, rfl, hsame, rfl, hrest⟩ := hscript
  refine ⟨rfl, rfl, hsame.mono (Nat.sub_le _ _), by omega, .growLeft ?_⟩
  have hplace : o + (size - shared) = o + size - shared := by omega
  have hplaceNew : n + (size - shared) + count = n + size + count - shared := by omega
  rw [hplace, hplaceNew, isScript_keep_iff, Nat.sub_add_cancel (by omega),
    Nat.sub_add_cancel (by omega)]
  exact ⟨rfl, rfl, hend, hrest⟩

/-- An addition moves down past kept lines that start like it. -/
theorem IsScript.addDown {o n size start count shared : Nat}
    (hscript : IsScript old new i j (.add start count :: .keep o n size :: rest) i' j')
    (hshared : commonStart old new ⟨o, o + size⟩ ⟨start, start + count⟩ = shared) :
    IsScript old new i j
      (.keep o start shared :: .add (start + shared) count ::
        .keep (o + shared) (n + shared) (size - shared) :: rest) i' j' := by
  obtain ⟨hsize, hcount, hstart, -⟩ :=
    @commonStart_spec old new ⟨o, o + size⟩ ⟨start, start + count⟩
  simp only [Range.size, hshared, Nat.add_sub_cancel_left] at hsize hcount hstart
  simp only [isScript_keep_iff, isScript_add_iff] at hscript ⊢
  obtain ⟨rfl, rfl, rfl, hsame, hrest⟩ := hscript
  refine ⟨rfl, rfl, hstart, rfl, rfl, by omega, ?_, ?_⟩
  · rw [Nat.add_right_comm]
    exact hsame.skip hsize
  · have hplace : o + shared + (size - shared) = o + size := by omega
    have hplaceNew : start + shared + count + (size - shared) = start + count + size := by omega
    rwa [hplace, hplaceNew]

end Moves

/-- All edits around the focus, in order. -/
def Focus.edits (focus : Focus) : List Edit := focus.before.reverse ++ focus.edit :: focus.after

section Steps

/-- Edits behind others may be exchanged for ones that lead to the same place. -/
theorem IsScript.replace {front back back' : List Edit}
    (hscript : IsScript old new i j (front ++ back) i' j')
    (hback : ∀ m n, IsScript old new m n back i' j' → IsScript old new m n back' i' j') :
    IsScript old new i j (front ++ back') i' j' := by
  obtain ⟨m, n, hfront, hrest⟩ := hscript.exists_of_append
  exact hfront.append (hback m n hrest)

theorem isScript_up? {focus next : Focus} (hnext : focus.up? old new = some next)
    (hscript : IsScript old new i j focus.edits i' j') : IsScript old new i j next.edits i' j' := by
  obtain ⟨_ | ⟨previous, before⟩, edit, after⟩ := focus
  · cases hnext
  unfold Focus.edits at hscript ⊢
  rw [List.reverse_cons, List.append_assoc, List.singleton_append] at hscript
  unfold Focus.up? at hnext
  cases edit with
  | keep => cases previous <;> cases hnext
  | drop start count =>
      cases previous with
      | keep o n size =>
          obtain ⟨rfl, hnext⟩ := Option.ite_none_right_eq_some.mp hnext
          obtain rfl := Option.some.inj hnext
          exact hscript.replace fun m n hback => (isScript_keep_zero_iff.mp hback).2.2
      | drop first size =>
          obtain rfl := Option.some.inj hnext
          exact hscript.replace fun m n hback => hback.joinDrops
      | add first size =>
          obtain rfl := Option.some.inj hnext
          exact hscript.replace fun m n hback => isScript_swap_iff.mpr hback
  | add start count =>
      cases previous with
      | keep o n size =>
          dsimp only at hnext
          split at hnext
          next =>
            obtain rfl := Option.some.inj hnext
            have hmoved := hscript.replace fun m n hback => hback.addUp rfl
            dsimp only
            split
            next hall =>
              rw [← hall, Nat.sub_self] at hmoved
              rw [← hall]
              exact hmoved.replace fun m n hback => (isScript_keep_zero_iff.mp hback).2.2
            next => rwa [List.reverse_cons, List.append_assoc, List.singleton_append]
          next =>
            obtain ⟨rfl, hnext⟩ := Option.ite_none_right_eq_some.mp hnext
            obtain rfl := Option.some.inj hnext
            exact hscript.replace fun m n hback => (isScript_keep_zero_iff.mp hback).2.2
      | drop first size =>
          obtain rfl := Option.some.inj hnext
          exact hscript.replace fun m n hback => isScript_swap_iff.mp hback
      | add first size =>
          obtain rfl := Option.some.inj hnext
          exact hscript.replace fun m n hback => hback.joinAdds

theorem isScript_down? {focus next : Focus} (hnext : focus.down? old new = some next)
    (hscript : IsScript old new i j focus.edits i' j') : IsScript old new i j next.edits i' j' := by
  obtain ⟨before, edit, _ | ⟨following, after⟩⟩ := focus
  · cases hnext
  unfold Focus.edits at hscript ⊢
  unfold Focus.down? at hnext
  cases edit with
  | keep => cases following <;> cases hnext
  | drop start count =>
      cases following with
      | keep o n size =>
          obtain ⟨rfl, hnext⟩ := Option.ite_none_right_eq_some.mp hnext
          obtain rfl := Option.some.inj hnext
          refine hscript.replace fun m n hback => ?_
          rw [isScript_drop_iff, isScript_keep_zero_iff] at hback
          exact isScript_drop_iff.mpr ⟨hback.1, hback.2.2.2⟩
      | drop first size =>
          obtain rfl := Option.some.inj hnext
          exact hscript.replace fun m n hback => hback.joinDrops
      | add first size =>
          obtain rfl := Option.some.inj hnext
          rw [List.reverse_cons, List.append_assoc, List.singleton_append]
          exact hscript.replace fun m n hback => isScript_swap_iff.mp hback
  | add start count =>
      cases following with
      | keep o n size =>
          dsimp only at hnext
          split at hnext
          next =>
            obtain rfl := Option.some.inj hnext
            refine IsScript.growRight (hscript.replace fun m k hback => ?_)
            have hmoved := hback.addDown rfl
            dsimp only
            split
            next hall =>
              rw [← hall, Nat.sub_self, isScript_keep_iff, isScript_add_iff,
                isScript_keep_zero_iff] at hmoved
              rw [← hall, isScript_keep_iff, isScript_add_iff]
              exact ⟨hmoved.1, hmoved.2.1, hmoved.2.2.1, hmoved.2.2.2.1, hmoved.2.2.2.2.2.2⟩
            next => exact hmoved
          next =>
            obtain ⟨rfl, hnext⟩ := Option.ite_none_right_eq_some.mp hnext
            obtain rfl := Option.some.inj hnext
            refine hscript.replace fun m n hback => ?_
            rw [isScript_add_iff, isScript_keep_zero_iff] at hback
            exact isScript_add_iff.mpr ⟨hback.1, hback.2.2.2⟩
      | drop first size =>
          obtain rfl := Option.some.inj hnext
          rw [List.reverse_cons, List.append_assoc, List.singleton_append]
          exact hscript.replace fun m n hback => isScript_swap_iff.mpr hback
      | add first size =>
          obtain rfl := Option.some.inj hnext
          exact hscript.replace fun m n hback => hback.joinAdds

theorem isScript_exhaust {step : Focus → Option Focus}
    (hstep : ∀ focus next, step focus = some next → IsScript old new i j focus.edits i' j' →
      IsScript old new i j next.edits i' j')
    (fuel : Nat) {focus : Focus} (hscript : IsScript old new i j focus.edits i' j') :
    IsScript old new i j (focus.exhaust step fuel).edits i' j' := by
  induction fuel generalizing focus with
  | zero => exact hscript
  | succ fuel ih =>
      rw [Focus.exhaust]
      split
      next next hnext => exact ih (hstep focus next hnext hscript)
      next => exact hscript

/-- Edits lead to the same place wherever they are moved. -/
theorem isScript_settle (moves : Edit → Bool) (bound fuel : Nat) {before after : List Edit}
    (hscript : IsScript old new i j (before.reverse ++ after) i' j') :
    IsScript old new i j (settle old new moves bound fuel before after) i' j' := by
  induction fuel generalizing before after with
  | zero => exact hscript
  | succ fuel ih =>
      cases after with
      | nil => simpa [settle] using hscript
      | cons edit after =>
          rw [settle]
          split
          next =>
            refine ih ?_
            rw [List.reverse_cons, List.append_assoc, List.singleton_append]
            exact isScript_exhaust (fun _ _ => isScript_down?) bound
              (isScript_exhaust (fun _ _ => isScript_up?) bound hscript)
          next =>
            refine ih ?_
            rwa [List.reverse_cons, List.append_assoc, List.singleton_append]

end Steps

section Combine

/-- A change that goes on with dropped lines, which stand before what it adds. -/
theorem IsScript.extendDropped {dropped added : Option (Nat × Nat)} {start count : Nat}
    (hscript : IsScript old new i j
      (changeEdits dropped added ++ .drop start count :: rest) i' j') :
    IsScript old new i j (changeEdits (extend dropped start count) added ++ rest) i' j' := by
  have hswapped : ∀ {i j : Nat},
      IsScript old new i j (changeEdits none added ++ .drop start count :: rest) i' j' →
        IsScript old new i j (.drop start count :: (changeEdits none added ++ rest)) i' j' := by
    cases added with
    | none => exact id
    | some range => exact isScript_swap_iff.mpr
  unfold changeEdits at hscript ⊢
  rw [List.append_assoc] at hscript ⊢
  cases dropped with
  | none => exact hswapped hscript
  | some range =>
      obtain ⟨rfl, hrest⟩ := isScript_drop_iff.mp hscript
      exact IsScript.joinDrops (.drop (hswapped hrest))

/-- A change that goes on with added lines. -/
theorem IsScript.extendAdded {dropped added : Option (Nat × Nat)} {start count : Nat}
    (hscript : IsScript old new i j
      (changeEdits dropped added ++ .add start count :: rest) i' j') :
    IsScript old new i j (changeEdits dropped (extend added start count) ++ rest) i' j' := by
  unfold changeEdits at hscript ⊢
  rw [List.append_assoc] at hscript ⊢
  refine hscript.replace fun m n hback => ?_
  cases added with
  | none => exact hback
  | some range => exact hback.joinAdds

theorem IsScript.combine {edits : List Edit} {dropped added : Option (Nat × Nat)}
    (hscript : IsScript old new i j (changeEdits dropped added ++ edits) i' j') :
    IsScript old new i j (combine dropped added edits) i' j' := by
  induction edits generalizing i j dropped added with
  | nil => rwa [LineDiff.combine, ← List.append_nil (changeEdits dropped added)]
  | cons edit rest ih =>
      cases edit with
      | drop start count => exact ih hscript.extendDropped
      | add start count => exact ih hscript.extendAdded
      | keep o n count =>
          rw [LineDiff.combine]
          refine hscript.replace fun m k hback => ?_
          rw [isScript_keep_iff] at hback
          obtain ⟨rfl, rfl, hsame, hrest⟩ := hback
          have hcombined := @ih _ _ none none hrest
          split
          next first firstNew size others heq =>
            rw [heq, isScript_keep_iff] at hcombined
            obtain ⟨rfl, rfl, hnext, hothers⟩ := hcombined
            refine .keep (hsame.add hnext) ?_
            rwa [← Nat.add_assoc, ← Nat.add_assoc]
          next => exact .keep hsame hcombined

end Combine

/-- Tidied edits lead where the edits did. -/
theorem IsScript.tidy {edits : List Edit} (hscript : IsScript old new i j edits i' j') :
    IsScript old new i j (tidy old new edits) i' j' := by
  refine IsScript.combine ?_
  exact isScript_settle isAdd _ _ (isScript_settle isDrop _ _ hscript)

end TrackingPlan.LineDiff
