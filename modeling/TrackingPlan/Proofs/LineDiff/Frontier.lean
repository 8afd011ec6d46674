import TrackingPlan.LineDiff.Shortest

/-!
# How far a search has come

On the diagonal `k` of two ranges of `n` and `m` lines a search has come to a place
`x`, which is `x - k` in the other range. It may have left the ranges, but after `r`
changes only on diagonals that are more than `r` away from the one both ranges end
on, since it would have met the other search there.
-/

namespace TrackingPlan.LineDiff

variable {n m r changes limit : Nat} {f g : Frontier} {k : Int}

theorem mem_diagonals_iff :
    k ∈ diagonals changes ↔ -(changes : Int) ≤ k ∧ k ≤ changes ∧ (changes - k) % 2 = 0 := by
  unfold diagonals
  rw [List.mem_map]
  constructor
  · rintro ⟨i, hi, rfl⟩
    have hlt := List.mem_range.mp hi
    omega
  · rintro ⟨hleast, hgreatest, hparity⟩
    exact ⟨((changes - k) / 2).toNat, List.mem_range.mpr (by omega), by omega⟩

namespace Frontier

section Entries

/-- The frontier has a place for every diagonal up to the limit and next to it. -/
structure Fits (limit : Nat) (f : Frontier) : Prop where
  offset : f.offset = limit + 1
  size : f.reached.size = 2 * limit + 3

theorem fits_start (limit : Nat) : (start limit).Fits limit :=
  ⟨rfl, Array.size_replicate⟩

theorem get_start (limit : Nat) (k : Int) : (start limit).get k = 0 := by
  unfold get start
  rw [Array.getD_eq_getD_getElem?, Array.getElem?_replicate]
  split <;> rfl

theorem Fits.set (hfits : f.Fits limit) (k : Int) (x : Nat) : (f.set k x).Fits limit :=
  ⟨hfits.offset, by rw [Frontier.set, Array.size_setIfInBounds, hfits.size]⟩

theorem Fits.get_set (hfits : f.Fits limit) {k' : Int} (hk : k.natAbs ≤ limit + 1)
    (hk' : k'.natAbs ≤ limit + 1) (x : Nat) :
    (f.set k x).get k' = if k' = k then x else f.get k' := by
  have hsize := hfits.size
  have hoffset := hfits.offset
  unfold get Frontier.set
  dsimp only
  rw [Array.getD_eq_getD_getElem?, Array.getD_eq_getD_getElem?, Array.getElem?_setIfInBounds]
  by_cases heq : k' = k
  · rw [if_pos (by rw [heq]), if_pos (by omega), if_pos heq, Option.getD_some]
  · rw [if_neg (by omega), if_neg heq]

end Entries

section Entering

/-- A search enters a diagonal from the one next to it that has come farther. -/
theorem enter_cases (f : Frontier) (hk : k ∈ diagonals (r + 1)) :
    (k - 1 ∈ diagonals r ∧ f.enter (r + 1 : Nat) k = f.get (k - 1) + 1 ∧
      (k + 1 ∈ diagonals r → f.get (k + 1) ≤ f.get (k - 1))) ∨
    (k + 1 ∈ diagonals r ∧ f.enter (r + 1 : Nat) k = f.get (k + 1) ∧
      (k - 1 ∈ diagonals r → f.get (k - 1) < f.get (k + 1))) := by
  simp only [mem_diagonals_iff] at hk ⊢
  unfold enter
  split
  next hdown => right; refine ⟨by omega, rfl, by omega⟩
  next hright => left; refine ⟨by omega, rfl, by omega⟩

/-- A search goes at least as far as from either diagonal next to it. -/
theorem le_enter (f : Frontier) (hk : k ∈ diagonals (r + 1)) :
    (k - 1 ∈ diagonals r → f.get (k - 1) + 1 ≤ f.enter (r + 1 : Nat) k) ∧
      (k + 1 ∈ diagonals r → f.get (k + 1) ≤ f.enter (r + 1 : Nat) k) := by
  rcases f.enter_cases hk with ⟨hprevious, henter, hother⟩ | ⟨hprevious, henter, hother⟩
  · rw [henter]
    exact ⟨fun _ => Nat.le_refl _, fun hnext => Nat.le_succ_of_le (hother hnext)⟩
  · rw [henter]
    exact ⟨hother, fun _ => Nat.le_refl _⟩

end Entering

section Rounds

/-- After a number of changes, no place is in front of the other range. -/
structure HasRows (r : Nat) (f : Frontier) : Prop where
  origin : r = 0 → f.get 0 = 0
  row : ∀ k ∈ diagonals r, k ≤ f.get k

/-- Where a search has come after a number of changes without a meeting. -/
structure IsAfter (n m r : Nat) (f : Frontier) : Prop extends HasRows r f where
  right : ∀ k ∈ diagonals r, (f.get k : Int) ≤ n + r
  below : ∀ k ∈ diagonals r, f.get k - k ≤ m + r
  /-- Behind the end of either range the search is far from the diagonal of both ends. -/
  of_right : ∀ k ∈ diagonals r, n ≤ f.get k → (r : Int) < k - (n - m)
  of_below : ∀ k ∈ diagonals r, m ≤ f.get k - k → k - (n - m) < -(r : Int)
  /-- Where a search left a range, the one on the next diagonal has come to the end of it. -/
  next_right : ∀ k ∈ diagonals r, k - 2 ∈ diagonals r → n < f.get k → n ≤ f.get (k - 2)
  next_below : ∀ k ∈ diagonals r, k + 2 ∈ diagonals r → m < f.get k - k →
    m ≤ f.get (k + 2) - (k + 2)
  least : f.get (-(r : Int)) ≤ n
  greatest : f.get r - (r : Int) ≤ m

/-- A search goes on from where it entered a diagonal, but not out of the ranges, and without
changes not at all. -/
def Advances (n m changes : Nat) (f : Frontier) (k : Int) (x : Nat) : Prop :=
  ∃ advance, x = f.enter changes k + advance ∧ (changes = 0 → advance = 0) ∧
    (0 < advance → x ≤ n ∧ x - k ≤ m)

variable {x : Nat}

theorem enter_zero (hfirst : f.get 1 = 0) : f.enter (0 : Nat) 0 = 0 := by
  unfold enter
  rw [if_pos (.inl rfl)]
  exact hfirst

theorem hasRows_zero (hfirst : f.get 1 = 0)
    (hadvances : ∀ k ∈ diagonals 0, Advances n m 0 f k (g.get k)) : HasRows 0 g := by
  obtain ⟨advance, hx, hzero, -⟩ := hadvances 0 (by decide)
  rw [enter_zero hfirst, hzero rfl] at hx
  refine ⟨fun _ => hx, fun k hk => ?_⟩
  rw [mem_diagonals_iff] at hk
  omega

theorem HasRows.succ (hrows : HasRows r f)
    (hadvances : ∀ k ∈ diagonals (r + 1), Advances n m (r + 1) f k (g.get k)) :
    HasRows (r + 1) g := by
  refine ⟨nofun, fun k hk => ?_⟩
  obtain ⟨advance, hx, -, -⟩ := hadvances k hk
  rcases f.enter_cases hk with ⟨hprevious, henter, -⟩ | ⟨hprevious, henter, -⟩ <;>
  · have := hrows.row _ hprevious
    omega

theorem isAfter_zero (hn : 0 < n) (hm : 0 < m) (hrows : HasRows 0 g) : IsAfter n m 0 g := by
  have horigin := hrows.origin rfl
  have hzero : ∀ k ∈ diagonals 0, k = 0 := by simp [diagonals]
  constructor
  case toHasRows => exact hrows
  case least | greatest => simp [horigin]
  all_goals
    intro k hk
    obtain rfl := hzero k hk
    omega

section Succ

variable (hafter : IsAfter n m r f)
  (hadvances : ∀ k ∈ diagonals (r + 1), Advances n m (r + 1) f k (g.get k))

include hafter hadvances

theorem IsAfter.right_succ (hk : k ∈ diagonals (r + 1)) : (g.get k : Int) ≤ n + (r + 1 : Nat) := by
  obtain ⟨advance, hx, -, hinside⟩ := hadvances k hk
  rcases f.enter_cases hk with ⟨hprevious, henter, -⟩ | ⟨hprevious, henter, -⟩ <;>
  · have hbound := hafter.right _ hprevious
    omega

theorem IsAfter.below_succ (hk : k ∈ diagonals (r + 1)) : g.get k - k ≤ m + (r + 1 : Nat) := by
  obtain ⟨advance, hx, -, hinside⟩ := hadvances k hk
  rcases f.enter_cases hk with ⟨hprevious, henter, -⟩ | ⟨hprevious, henter, -⟩ <;>
  · have hbound := hafter.below _ hprevious
    omega

theorem IsAfter.next_right_succ (hk : k ∈ diagonals (r + 1)) (hk' : k - 2 ∈ diagonals (r + 1))
    (hout : n < g.get k) : n ≤ g.get (k - 2) := by
  obtain ⟨advance, hx, -, hinside⟩ := hadvances k hk
  obtain ⟨advance', hx', -, -⟩ := hadvances _ hk'
  have hmiddle : k - 2 + 1 ∈ diagonals r := by
    simp only [mem_diagonals_iff] at hk hk' ⊢
    omega
  have hle := (f.le_enter hk').2 hmiddle
  rw [show k - 2 + 1 = k - 1 by omega] at hle hmiddle
  rcases f.enter_cases hk with ⟨hprevious, henter, -⟩ | ⟨hprevious, henter, -⟩
  · omega
  · have hnext := hafter.next_right _ hprevious
    rw [show k + 1 - 2 = k - 1 by omega] at hnext
    have hend := hnext hmiddle
    omega

theorem IsAfter.next_below_succ (hk : k ∈ diagonals (r + 1)) (hk' : k + 2 ∈ diagonals (r + 1))
    (hout : m < g.get k - k) : m ≤ g.get (k + 2) - (k + 2) := by
  obtain ⟨advance, hx, -, hinside⟩ := hadvances k hk
  obtain ⟨advance', hx', -, -⟩ := hadvances _ hk'
  have hmiddle : k + 2 - 1 ∈ diagonals r := by
    simp only [mem_diagonals_iff] at hk hk' ⊢
    omega
  have hle := (f.le_enter hk').1 hmiddle
  rw [show k + 2 - 1 = k + 1 by omega] at hle hmiddle
  rcases f.enter_cases hk with ⟨hprevious, henter, -⟩ | ⟨hprevious, henter, -⟩
  · have hnext := hafter.next_below _ hprevious
    rw [show k - 1 + 2 = k + 1 by omega] at hnext
    have hend := hnext hmiddle
    omega
  · omega

theorem IsAfter.least_succ : g.get (-((r + 1 : Nat) : Int)) ≤ n := by
  have hk : -((r + 1 : Nat) : Int) ∈ diagonals (r + 1) := mem_diagonals_iff.mpr (by omega)
  obtain ⟨advance, hx, -, hinside⟩ := hadvances _ hk
  have hleast := hafter.least
  rcases f.enter_cases hk with ⟨hprevious, -, -⟩ | ⟨-, henter, -⟩
  · rw [mem_diagonals_iff] at hprevious
    omega
  · rw [show -((r + 1 : Nat) : Int) + 1 = -r by omega] at henter
    omega

theorem IsAfter.greatest_succ : g.get (r + 1 : Nat) - ((r + 1 : Nat) : Int) ≤ m := by
  have hk : ((r + 1 : Nat) : Int) ∈ diagonals (r + 1) := mem_diagonals_iff.mpr (by omega)
  obtain ⟨advance, hx, -, hinside⟩ := hadvances _ hk
  have hgreatest := hafter.greatest
  rcases f.enter_cases hk with ⟨-, henter, -⟩ | ⟨hprevious, -, -⟩
  · rw [show ((r + 1 : Nat) : Int) - 1 = r by omega] at henter
    omega
  · rw [mem_diagonals_iff] at hprevious
    omega

theorem IsAfter.succ (hnear : ∀ k ∈ diagonals (r + 1), (k - (n - m)).natAbs ≤ r + 1 →
    g.get k < n ∧ g.get k - k < m) : IsAfter n m (r + 1) g where
  toHasRows := hafter.toHasRows.succ hadvances
  right _ hk := hafter.right_succ hadvances hk
  below _ hk := hafter.below_succ hadvances hk
  of_right k hk hend := by
    have hbound := hafter.below_succ hadvances hk
    have hinside := hnear k hk
    omega
  of_below k hk hend := by
    have hbound := hafter.right_succ hadvances hk
    have hinside := hnear k hk
    omega
  next_right _ hk hk' hout := hafter.next_right_succ hadvances hk hk' hout
  next_below _ hk hk' hout := hafter.next_below_succ hadvances hk hk' hout
  least := hafter.least_succ hadvances
  greatest := hafter.greatest_succ hadvances

end Succ

section Enter

variable (hafter : IsAfter n m r f) (hk : k ∈ diagonals (r + 1))
  (hnear : (k - (n - m)).natAbs ≤ r + 1)

include hafter hk hnear

/-- The search left no range on the diagonals next to one near that of both ends, since it would
have come to the end on the other side of it too. -/
theorem IsAfter.le_below (hprevious : k - 1 ∈ diagonals r) : f.get (k - 1) - (k - 1) ≤ m := by
  by_cases hother : k + 1 ∈ diagonals r
  · have hnext := hafter.next_below _ hprevious
    rw [show k - 1 + 2 = k + 1 by omega] at hnext
    have hbelow := hafter.of_below _ hprevious
    have hend := hafter.of_below _ hother
    have hnext := hnext hother
    omega
  · have hgreatest := hafter.greatest
    have hlast : k - 1 = r := by
      simp only [mem_diagonals_iff] at hk hother hprevious
      omega
    rwa [← hlast] at hgreatest

theorem IsAfter.le_right (hprevious : k + 1 ∈ diagonals r) : f.get (k + 1) ≤ n := by
  by_cases hother : k - 1 ∈ diagonals r
  · have hnext := hafter.next_right _ hprevious
    rw [show k + 1 - 2 = k - 1 by omega] at hnext
    have hright := hafter.of_right _ hprevious
    have hend := hafter.of_right _ hother
    have hnext := hnext hother
    omega
  · have hleast := hafter.least
    have hlast : k + 1 = -r := by
      simp only [mem_diagonals_iff] at hk hother hprevious
      omega
    rwa [← hlast] at hleast

/-- A diagonal near the one of both ends is entered inside the ranges, and at no corner. -/
theorem IsAfter.enter_inside (hn : 0 < n) (hm : 0 < m) :
    f.enter (r + 1 : Nat) k ≤ n ∧ k ≤ f.enter (r + 1 : Nat) k ∧ f.enter (r + 1 : Nat) k - k ≤ m ∧
      0 < f.enter (r + 1 : Nat) k + (f.enter (r + 1 : Nat) k - k) ∧
      ¬ (f.enter (r + 1 : Nat) k = n ∧ f.enter (r + 1 : Nat) k - k = m) := by
  -- Without changes the search is at its start, which is no end of the ranges.
  have hstart : ∀ k ∈ diagonals r, r = 0 → k = 0 ∧ f.get k = 0 := by
    intro k hk hzero
    obtain rfl : k = 0 := by
      rw [mem_diagonals_iff] at hk
      omega
    exact ⟨rfl, hafter.origin hzero⟩
  rcases f.enter_cases hk with ⟨hprevious, henter, -⟩ | ⟨hprevious, henter, -⟩
  · have hrow := hafter.row _ hprevious
    have hright := hafter.of_right _ hprevious
    have hbelow := hafter.of_below _ hprevious
    have hinside := hafter.le_below hk hnear hprevious
    have hzero := hstart _ hprevious
    rw [henter]
    omega
  · have hrow := hafter.row _ hprevious
    have hright := hafter.of_right _ hprevious
    have hbelow := hafter.of_below _ hprevious
    have hinside := hafter.le_right hk hnear hprevious
    have hzero := hstart _ hprevious
    rw [henter]
    omega

end Enter

end Rounds

end Frontier

end TrackingPlan.LineDiff
