import TrackingPlan.Proofs.LineDiff.Frontier
import TrackingPlan.Proofs.LineDiff.Script

/-!
# Where the searches meet

The searches go forward and backward by the same steps, each next to the frontier of
the other one. Away from the diagonal of both ends a search does not meet the other,
so the place where they meet lies in the ranges, and is neither of the corners that
they started from.
-/

namespace TrackingPlan.LineDiff

variable {n m r changes limit : Nat} {f g : Frontier} {k : Int}

section Sides

/-- The steps from one end: how far a diagonal goes on, whether the other search is met there,
and which place that is. -/
structure Side where
  advance : Int → Nat → Nat
  fires : Int → Nat → Bool
  place : Int → Nat → Nat × Nat

/-- A step on a diagonal: the place where the searches met, or the frontier after it. -/
def Side.step (side : Side) (changes : Nat) (f : Frontier) (k : Int) :
    Except (Nat × Nat) Frontier :=
  let entered := f.enter changes k
  let x := entered + side.advance k entered
  if side.fires k x then .error (side.place k entered) else .ok (f.set k x)

/-- A fold of steps that keep what holds of the items done ends in what holds of all of them. -/
theorem foldlM_outcome {σ ε α : Type} {step : σ → α → Except ε σ} {items : List α}
    {done : List α → σ → Prop} {stopped : ε → Prop}
    (hstep : ∀ before item state, item ∈ items → done before state →
      (∀ next, step state item = .ok next → done (before ++ [item]) next) ∧
        ∀ fault, step state item = .error fault → stopped fault)
    {state : σ} (hstart : done [] state) :
    (∀ last, items.foldlM step state = .ok last → done items last) ∧
      ∀ fault, items.foldlM step state = .error fault → stopped fault := by
  suffices hrest : ∀ rest before state, (∀ item ∈ rest, item ∈ items) → done before state →
      (∀ last, rest.foldlM step state = .ok last → done (before ++ rest) last) ∧
        ∀ fault, rest.foldlM step state = .error fault → stopped fault from
    hrest items [] state (fun _ hitem => hitem) hstart
  intro rest
  induction rest with
  | nil =>
      intro before state _ hdone
      refine ⟨fun last hlast => ?_, nofun⟩
      obtain rfl := Except.ok.inj hlast
      rwa [List.append_nil]
  | cons item rest ih =>
      intro before state hitems hdone
      rw [List.forall_mem_cons] at hitems
      obtain ⟨hnext, hfault⟩ := hstep before item state hitems.1 hdone
      rw [List.foldlM_cons]
      cases hrun : step state item with
      | error fault =>
          exact ⟨nofun, fun other hother => Except.error.inj hother ▸ hfault fault hrun⟩
      | ok next =>
          have hall := ih (before ++ [item]) next hitems.2 (hnext next hrun)
          rwa [List.append_assoc] at hall

/-- A frontier within a round: diagonals of the other parity are as they were before it, and those
that are done are settled. -/
structure Side.Done (side : Side) (limit changes : Nat) (f : Frontier) (before : List Int)
    (g : Frontier) : Prop where
  fits : g.Fits limit
  get_eq : ∀ k : Int, k.natAbs ≤ limit + 1 → (changes - k) % 2 ≠ 0 → g.get k = f.get k
  settled : ∀ k ∈ before, k ∈ diagonals changes ∧ side.fires k (g.get k) = false ∧
    g.get k = f.enter changes k + side.advance k (f.enter changes k)

/-- A diagonal is entered from those of the other parity only. -/
theorem Side.Done.enter_eq {side : Side} {before : List Int}
    (hdone : side.Done limit changes f before g) (hchanges : changes ≤ limit)
    (hk : k ∈ diagonals changes) : g.enter changes k = f.enter changes k := by
  rw [mem_diagonals_iff] at hk
  unfold Frontier.enter
  rw [hdone.get_eq (k + 1) (by omega) (by omega), hdone.get_eq (k - 1) (by omega) (by omega)]

theorem Side.Done.step {side : Side} {before : List Int}
    (hdone : side.Done limit changes f before g) (hchanges : changes ≤ limit)
    (hk : k ∈ diagonals changes) :
    (∀ next, side.step changes g k = .ok next → side.Done limit changes f (before ++ [k]) next) ∧
      ∀ place, side.step changes g k = .error place →
        ∃ k ∈ diagonals changes, place = side.place k (f.enter changes k) ∧
          side.fires k (f.enter changes k + side.advance k (f.enter changes k)) = true := by
  have hbounds := mem_diagonals_iff.mp hk
  unfold Side.step
  dsimp only
  rw [hdone.enter_eq hchanges hk]
  split
  next hfires =>
    refine ⟨nofun, fun place hplace => ?_⟩
    exact ⟨k, hk, (Except.error.inj hplace).symm, hfires⟩
  next hfires =>
    refine ⟨fun next hnext => ?_, nofun⟩
    obtain rfl := Except.ok.inj hnext
    have hset := fun k' hk' => @Frontier.Fits.get_set limit g k hdone.fits k' (by omega) hk'
      (f.enter changes k + side.advance k (f.enter changes k))
    refine ⟨hdone.fits.set _ _, fun k' hk' hparity => ?_, fun k' hk' => ?_⟩
    · rw [hset k' hk', if_neg (by rintro rfl; exact hparity hbounds.2.2)]
      exact hdone.get_eq k' hk' hparity
    · by_cases heq : k' = k
      · rw [heq, hset k (by omega), if_pos rfl]
        exact ⟨hk, eq_false_of_ne_true hfires, rfl⟩
      · have hbefore : k' ∈ before := by simpa [heq] using hk'
        have hsettled := hdone.settled k' hbefore
        have hbounds' := mem_diagonals_iff.mp hsettled.1
        rwa [hset k' (by omega), if_neg heq]

/-- A round of steps uses the frontier of the round before only. -/
theorem Side.foldlM_step (side : Side) {f : Frontier} (hfits : f.Fits limit)
    (hchanges : changes ≤ limit) :
    (∀ g, (diagonals changes).foldlM (side.step changes) f = .ok g → g.Fits limit ∧
      ∀ k ∈ diagonals changes, side.fires k (g.get k) = false ∧
        g.get k = f.enter changes k + side.advance k (f.enter changes k)) ∧
    ∀ place, (diagonals changes).foldlM (side.step changes) f = .error place →
      ∃ k ∈ diagonals changes, place = side.place k (f.enter changes k) ∧
        side.fires k (f.enter changes k + side.advance k (f.enter changes k)) = true := by
  have hstart : side.Done limit changes f [] f := ⟨hfits, fun _ _ _ => rfl, nofun⟩
  obtain ⟨hok, herror⟩ := foldlM_outcome
    (fun before k g hk (hdone : side.Done limit changes f before g) => hdone.step hchanges hk)
    hstart
  refine ⟨fun g hg => ?_, herror⟩
  have hdone := hok g hg
  exact ⟨hdone.fits, fun k hk => (hdone.settled k hk).2⟩

end Sides

namespace Search

variable {old new : Array String} {search : Search}

/-- The steps forward, next to where the other search has come. -/
def forwardSide (old new : Array String) (changes : Nat) (search : Search) : Side where
  advance k x :=
    if x < search.a.size ∧ 0 ≤ (x : Int) - k ∧ (x : Int) - k < search.b.size then
      commonStart old new ⟨search.a.start + x, search.a.stop⟩
        ⟨search.b.start + ((x : Int) - k).toNat, search.b.stop⟩
    else 0
  fires k x := search.delta % 2 ≠ 0 ∧ (k - search.delta).natAbs ≤ (changes : Int) - 1 ∧
    search.a.size ≤ x + search.backward.get (-(k - search.delta))
  place k x := (search.a.start + x, search.b.start + ((x : Int) - k).toNat)

/-- The place where the common lines at the end begin. -/
def backwardAdvance (old new : Array String) (search : Search) (k : Int) (x : Nat) : Nat :=
  if x < search.a.size ∧ 0 ≤ (x : Int) - k ∧ (x : Int) - k < search.b.size then
    commonEnd old new ⟨search.a.start, search.a.stop - x⟩
      ⟨search.b.start, search.b.stop - ((x : Int) - k).toNat⟩
  else 0

/-- The steps backward, next to where the other search has come. -/
def backwardSide (old new : Array String) (changes : Nat) (search : Search) : Side where
  advance := search.backwardAdvance old new
  fires k x := search.delta % 2 = 0 ∧ (k - search.delta).natAbs ≤ (changes : Int) ∧
    search.a.size ≤ x + search.forward.get (-(k - search.delta))
  place k x := (search.a.stop - (x + search.backwardAdvance old new k x),
    search.b.stop - (((x : Int) - k).toNat + search.backwardAdvance old new k x))

theorem stepForward_eq (search : Search) (f : Frontier) (k : Int) :
    ({ search with forward := f } : Search).stepForward old new changes k =
      ((search.forwardSide old new changes).step changes f k).map
        fun f => { search with forward := f } := by
  unfold Side.step
  dsimp only
  rw [apply_ite (Except.map _)]
  simp only [forwardSide, decide_eq_true_eq]
  rfl

theorem stepBackward_eq (search : Search) (f : Frontier) (k : Int) :
    ({ search with backward := f } : Search).stepBackward old new changes k =
      ((search.backwardSide old new changes).step changes f k).map
        fun f => { search with backward := f } := by
  unfold Side.step
  dsimp only
  rw [apply_ite (Except.map _)]
  simp only [backwardSide, decide_eq_true_eq]
  rfl

/-- A fold of steps on a part of the state. -/
theorem foldlM_map {σ τ ε α : Type} {step : σ → α → Except ε σ} {inner : τ → α → Except ε τ}
    {put : τ → σ} (hstep : ∀ part item, step (put part) item = (inner part item).map put)
    (items : List α) (part : τ) :
    items.foldlM step (put part) = (items.foldlM inner part).map put := by
  induction items generalizing part with
  | nil => rfl
  | cons item rest ih =>
      rw [List.foldlM_cons, List.foldlM_cons, hstep]
      cases inner part item with
      | error fault => rfl
      | ok next => exact ih next

theorem foldlM_stepForward (changes : Nat) (search : Search) :
    (diagonals changes).foldlM
        (fun search diagonal => search.stepForward old new changes diagonal) search =
      ((diagonals changes).foldlM ((search.forwardSide old new changes).step changes)
        search.forward).map fun f => { search with forward := f } :=
  @foldlM_map _ _ _ _ _ _ (fun f => { search with forward := f }) search.stepForward_eq _ _

theorem foldlM_stepBackward (changes : Nat) (search : Search) :
    (diagonals changes).foldlM
        (fun search diagonal => search.stepBackward old new changes diagonal) search =
      ((diagonals changes).foldlM ((search.backwardSide old new changes).step changes)
        search.backward).map fun f => { search with backward := f } :=
  @foldlM_map _ _ _ _ _ _ (fun f => { search with backward := f }) search.stepBackward_eq _ _

end Search

section Rounds

/-- A frontier before a round, without regard to the other search. -/
def Frontier.RowsBefore : Nat → Frontier → Prop
  | 0, f => f.get 1 = 0
  | r + 1, f => f.HasRows r

/-- A frontier before a round that did not meet the other search so far. -/
def Frontier.IsBefore (n m : Nat) : Nat → Frontier → Prop
  | 0, f => f.get 1 = 0
  | r + 1, f => f.IsAfter n m r

theorem Frontier.RowsBefore.hasRows (hbefore : f.RowsBefore changes)
    (hadvances : ∀ k ∈ diagonals changes, f.Advances n m changes k (g.get k)) :
    g.HasRows changes := by
  cases changes with
  | zero => exact hasRows_zero hbefore hadvances
  | succ r => exact HasRows.succ hbefore hadvances

theorem Frontier.IsBefore.rowsBefore (hbefore : f.IsBefore n m changes) :
    f.RowsBefore changes := by
  cases changes with
  | zero => exact hbefore
  | succ r => exact hbefore.toHasRows

theorem Frontier.IsBefore.isAfter (hbefore : f.IsBefore n m changes) (hn : 0 < n) (hm : 0 < m)
    (hadvances : ∀ k ∈ diagonals changes, f.Advances n m changes k (g.get k))
    (hnear : ∀ k ∈ diagonals changes, (k - (n - m)).natAbs ≤ changes →
      g.get k < n ∧ g.get k - k < m) : g.IsAfter n m changes := by
  cases changes with
  | zero => exact isAfter_zero hn hm (hbefore.rowsBefore.hasRows hadvances)
  | succ r => exact IsAfter.succ hbefore hadvances hnear

/-- What two ranges have in common at their ends was taken off them. -/
structure Apart (old new : Array String) (a b : Range) : Prop where
  lt_stop : a.start < a.stop
  lt_stop_new : b.start < b.stop
  starts_ne : old[a.start]? ≠ new[b.start]?
  ends_ne : old[a.stop - 1]? ≠ new[b.stop - 1]?

/-- A place of two ranges that divides them. -/
structure Divides (a b : Range) (place : Nat × Nat) : Prop where
  start_le : a.start ≤ place.1
  le_stop : place.1 ≤ a.stop
  start_le_new : b.start ≤ place.2
  le_stop_new : place.2 ≤ b.stop
  ne_start : ¬ (place.1 = a.start ∧ place.2 = b.start)
  ne_stop : ¬ (place.1 = a.stop ∧ place.2 = b.stop)

/-- A side goes on inside the ranges only, and not at all from their ends. -/
structure Side.Stays (n m : Nat) (side : Side) : Prop where
  zero : side.advance 0 0 = 0
  inside : ∀ k x, 0 < side.advance k x →
    x + side.advance k x ≤ n ∧ (x : Int) + side.advance k x - k ≤ m

theorem Side.Stays.advances {side : Side} (hstays : side.Stays n m)
    (hbefore : f.RowsBefore changes) {x : Nat} (hk : k ∈ diagonals changes)
    (hx : x = f.enter changes k + side.advance k (f.enter changes k)) :
    f.Advances n m changes k x := by
  refine ⟨_, hx, fun hchanges => ?_, fun hadvance => ?_⟩
  · subst hchanges
    obtain rfl : k = 0 := by simpa [diagonals] using hk
    rw [Frontier.enter_zero hbefore, hstays.zero]
  · have hinside := hstays.inside k _ hadvance
    omega

variable {old new : Array String} {search : Search}

theorem Apart.forwardSide_stays (hapart : Apart old new search.a search.b) (changes : Nat) :
    (search.forwardSide old new changes).Stays search.a.size search.b.size where
  zero := by
    have hnone := commonStart_eq_zero hapart.starts_ne
    simp [Search.forwardSide, hnone]
  inside := by
    intro k x hadvance
    simp only [Search.forwardSide] at hadvance ⊢
    split at hadvance
    next hinside =>
      rw [if_pos hinside]
      obtain ⟨hle, hle', -⟩ := @commonStart_spec old new ⟨search.a.start + x, search.a.stop⟩
        ⟨search.b.start + ((x : Int) - k).toNat, search.b.stop⟩
      simp only [Range.size] at hle hle' hinside ⊢
      omega
    next => cases hadvance

theorem Apart.backwardSide_stays (hapart : Apart old new search.a search.b) (changes : Nat) :
    (search.backwardSide old new changes).Stays search.a.size search.b.size where
  zero := by
    have hnone := commonEnd_eq_zero hapart.ends_ne
    simp [Search.backwardSide, Search.backwardAdvance, hnone]
  inside := by
    intro k x hadvance
    simp only [Search.backwardSide, Search.backwardAdvance] at hadvance ⊢
    split at hadvance
    next hinside =>
      rw [if_pos hinside]
      obtain ⟨hle, hle', -⟩ := @commonEnd_spec old new ⟨search.a.start, search.a.stop - x⟩
        ⟨search.b.start, search.b.stop - ((x : Int) - k).toNat⟩
      simp only [Range.size] at hle hle' hinside ⊢
      omega
    next => cases hadvance

/-- Common lines at the end do not begin where both ranges do. -/
theorem Apart.backwardAdvance_ne_start (hapart : Apart old new search.a search.b) {x : Nat}
    (hadvance : 0 < search.backwardAdvance old new k x) :
    ¬ (x + search.backwardAdvance old new k x = search.a.size ∧
      (x : Int) + search.backwardAdvance old new k x - k = search.b.size) := by
  rintro ⟨hcorner, hcorner'⟩
  unfold Search.backwardAdvance at hadvance hcorner hcorner'
  split at hadvance
  next hinside =>
    rw [if_pos hinside] at hcorner hcorner'
    obtain ⟨-, -, hsame, -⟩ := @commonEnd_spec old new ⟨search.a.start, search.a.stop - x⟩
      ⟨search.b.start, search.b.stop - ((x : Int) - k).toNat⟩
    have hlt := hapart.lt_stop
    have hlt' := hapart.lt_stop_new
    refine hapart.starts_ne ?_
    have hfirst := hsame 0 hadvance
    simp only [Range.size] at hcorner hcorner' hinside
    generalize commonEnd old new ⟨search.a.start, search.a.stop - x⟩
      ⟨search.b.start, search.b.stop - ((x : Int) - k).toNat⟩ = advance at *
    have hplace : search.a.stop - x - advance + 0 = search.a.start := by omega
    have hplace' : search.b.stop - ((x : Int) - k).toNat - advance + 0 = search.b.start := by omega
    rwa [hplace, hplace'] at hfirst
  next => cases hadvance

/-- The frontier after a round without a meeting. -/
theorem Side.Stays.round {side : Side} (hstays : side.Stays n m) (hfits : f.Fits limit)
    (hchanges : changes ≤ limit) (hrows : f.RowsBefore changes)
    (hrun : (diagonals changes).foldlM (side.step changes) f = .ok g) :
    g.Fits limit ∧ g.HasRows changes ∧ (0 < n → 0 < m → f.IsBefore n m changes →
      (∀ k ∈ diagonals changes, (k - (n - m)).natAbs ≤ changes →
        side.fires k (g.get k) = false → g.get k < n ∧ g.get k - k < m) →
      g.IsAfter n m changes) := by
  obtain ⟨hgfits, hall⟩ := (side.foldlM_step hfits hchanges).1 g hrun
  have hadvances : ∀ k ∈ diagonals changes, f.Advances n m changes k (g.get k) :=
    fun k hk => hstays.advances hrows hk (hall k hk).2
  refine ⟨hgfits, hrows.hasRows hadvances, fun hn hm hbefore hnear => ?_⟩
  exact hbefore.isAfter hn hm hadvances fun k hk hclose => hnear k hk hclose (hall k hk).1

theorem Apart.size_pos (hapart : Apart old new search.a search.b) :
    0 < search.a.size ∧ 0 < search.b.size :=
  ⟨Nat.sub_pos_of_lt hapart.lt_stop, Nat.sub_pos_of_lt hapart.lt_stop_new⟩

/-- A round forward: the searches meet between the ends, or are not far out. -/
theorem Apart.round_forward (hapart : Apart old new search.a search.b)
    (hfits : search.forward.Fits limit) (hchanges : changes ≤ limit)
    (hforward : search.forward.RowsBefore changes) (hbackward : search.backward.RowsBefore changes)
    (hodd : search.delta % 2 ≠ 0 → search.forward.IsBefore search.a.size search.b.size changes) :
    (∀ g, (diagonals changes).foldlM ((search.forwardSide old new changes).step changes)
        search.forward = .ok g → g.Fits limit ∧ g.HasRows changes ∧
        (search.delta % 2 ≠ 0 → g.IsAfter search.a.size search.b.size changes)) ∧
    ∀ place, (diagonals changes).foldlM ((search.forwardSide old new changes).step changes)
        search.forward = .error place → Divides search.a search.b place := by
  obtain ⟨hn, hm⟩ := hapart.size_pos
  constructor
  · intro g hrun
    obtain ⟨hgfits, hrows, hafter⟩ :=
      (hapart.forwardSide_stays changes).round hfits hchanges hforward hrun
    refine ⟨hgfits, hrows, fun hdelta => hafter hn hm (hodd hdelta) fun k hk hnear hfires => ?_⟩
    simp only [Search.forwardSide, decide_eq_false_iff_not, not_and] at hfires
    have hbounds := mem_diagonals_iff.mp hk
    unfold Search.delta at hfires hdelta
    cases changes with
    | zero => omega
    | succ r =>
        have hother := Frontier.HasRows.row hbackward
          (-(k - ((search.a.size : Int) - search.b.size))) (mem_diagonals_iff.mpr (by omega))
        have hnone := hfires hdelta (by omega)
        omega
  · intro place hrun
    obtain ⟨k, hk, rfl, hfires⟩ :=
      ((search.forwardSide old new changes).foldlM_step hfits hchanges).2 place hrun
    simp only [Search.forwardSide, decide_eq_true_eq] at hfires ⊢
    obtain ⟨hdelta, hnear, -⟩ := hfires
    have hbefore := hodd hdelta
    unfold Search.delta at hnear
    cases changes with
    | zero => omega
    | succ r =>
        obtain ⟨hright, hrow, hbelow, hstart, hend⟩ :=
          Frontier.IsAfter.enter_inside hbefore hk (by omega) hn hm
        have hlt := hapart.lt_stop
        have hlt' := hapart.lt_stop_new
        simp only [Range.size] at hright hbelow hend
        constructor <;> dsimp only <;> omega

/-- A round backward, against the search that has gone forward in the same round. -/
theorem Apart.round_backward (hapart : Apart old new search.a search.b)
    (hfits : search.backward.Fits limit) (hchanges : changes ≤ limit)
    (hforward : search.forward.HasRows changes) (hbackward : search.backward.RowsBefore changes)
    (heven : search.delta % 2 = 0 → search.backward.IsBefore search.a.size search.b.size changes) :
    (∀ g, (diagonals changes).foldlM ((search.backwardSide old new changes).step changes)
        search.backward = .ok g → g.Fits limit ∧ g.HasRows changes ∧
        (search.delta % 2 = 0 → g.IsAfter search.a.size search.b.size changes)) ∧
    ∀ place, (diagonals changes).foldlM ((search.backwardSide old new changes).step changes)
        search.backward = .error place → Divides search.a search.b place := by
  obtain ⟨hn, hm⟩ := hapart.size_pos
  constructor
  · intro g hrun
    obtain ⟨hgfits, hrows, hafter⟩ :=
      (hapart.backwardSide_stays changes).round hfits hchanges hbackward hrun
    refine ⟨hgfits, hrows, fun hdelta => hafter hn hm (heven hdelta) fun k hk hnear hfires => ?_⟩
    simp only [Search.backwardSide, decide_eq_false_iff_not, not_and] at hfires
    have hbounds := mem_diagonals_iff.mp hk
    unfold Search.delta at hfires hdelta
    have hother := hforward.row (-(k - ((search.a.size : Int) - search.b.size)))
      (mem_diagonals_iff.mpr (by omega))
    have hnone := hfires hdelta (by omega)
    omega
  · intro place hrun
    obtain ⟨k, hk, rfl, hfires⟩ :=
      ((search.backwardSide old new changes).foldlM_step hfits hchanges).2 place hrun
    simp only [Search.backwardSide, decide_eq_true_eq] at hfires ⊢
    obtain ⟨hdelta, hnear, hmeets⟩ := hfires
    have hbefore := heven hdelta
    have hstays := hapart.backwardSide_stays changes
    have hbounds := mem_diagonals_iff.mp hk
    unfold Search.delta at hnear hmeets hdelta
    cases changes with
    | zero =>
        obtain rfl : k = 0 := by omega
        have hzero := hstays.zero
        have horigin := hforward.origin rfl
        have henter := Frontier.enter_zero hbefore
        have hends : -((0 : Int) - ((search.a.size : Int) - search.b.size)) = 0 := by omega
        simp only [Search.backwardSide] at hzero
        rw [henter, hzero, hends, horigin] at hmeets
        omega
    | succ r =>
        obtain ⟨hright, hrow, hbelow, hstart, hend⟩ :=
          Frontier.IsAfter.enter_inside hbefore hk (by omega) hn hm
        have hinside := hstays.inside k (search.backward.enter ((r + 1 : Nat) : Int) k)
        have hcorner := @Apart.backwardAdvance_ne_start k old new search hapart
          (search.backward.enter ((r + 1 : Nat) : Int) k)
        have hlt := hapart.lt_stop
        have hlt' := hapart.lt_stop_new
        simp only [Search.backwardSide] at hinside
        simp only [Range.size] at hright hbelow hend hinside hcorner
        constructor <;> dsimp only <;> omega

end Rounds

section Searches

variable {old new : Array String} {search : Search}

/-- Both searches before a round, and that they did not meet so far. -/
structure Search.IsReady (limit changes : Nat) (search : Search) : Prop where
  forward_fits : search.forward.Fits limit
  backward_fits : search.backward.Fits limit
  forward_rows : search.forward.RowsBefore changes
  backward_rows : search.backward.RowsBefore changes
  odd : search.delta % 2 ≠ 0 → search.forward.IsBefore search.a.size search.b.size changes
  even : search.delta % 2 = 0 → search.backward.IsBefore search.a.size search.b.size changes

theorem divides_searchMeeting (hapart : Apart old new search.a search.b) {fuel : Nat}
    (hready : search.IsReady limit changes) (hfuel : changes + fuel ≤ limit) {place : Nat × Nat}
    (hmeets : searchMeeting old new fuel changes search = some place) :
    Divides search.a search.b place := by
  induction fuel generalizing changes search with
  | zero => cases hmeets
  | succ fuel ih =>
      unfold searchMeeting at hmeets
      dsimp only at hmeets
      rw [Search.foldlM_stepForward] at hmeets
      obtain ⟨hforward, hdivides⟩ := hapart.round_forward hready.forward_fits (by omega)
        hready.forward_rows hready.backward_rows hready.odd
      cases hfirst : (diagonals changes).foldlM
          ((search.forwardSide old new changes).step changes) search.forward with
      | error other =>
          rw [hfirst] at hmeets
          obtain rfl := Option.some.inj hmeets
          exact hdivides other hfirst
      | ok f =>
          obtain ⟨hfits, hrows, hodd⟩ := hforward f hfirst
          obtain ⟨hbackward, hdivides⟩ :=
            @Apart.round_backward changes limit old new { search with forward := f } hapart
              hready.backward_fits (by omega) hrows hready.backward_rows hready.even
          rw [hfirst] at hmeets
          simp only [Except.map, bind, Except.bind] at hmeets
          rw [Search.foldlM_stepBackward] at hmeets
          cases hsecond : (diagonals changes).foldlM
              ((Search.backwardSide old new changes { search with forward := f }).step changes)
              search.backward with
          | error other =>
              rw [hsecond] at hmeets
              obtain rfl := Option.some.inj hmeets
              exact hdivides other hsecond
          | ok g =>
              obtain ⟨hfits', hrows', heven⟩ := hbackward g hsecond
              rw [hsecond] at hmeets
              refine @ih (changes + 1) { search with forward := f, backward := g } hapart ?_
                (by omega) hmeets
              exact ⟨hfits, hfits', hrows, hrows', hodd, heven⟩

/-- The searches on two ranges meet in a place that divides them. -/
theorem divides_meeting? {a b : Range} (hapart : Apart old new a b) {place : Nat × Nat}
    (hmeets : meeting? old new a b = some place) : Divides a b place := by
  unfold meeting? at hmeets
  generalize (a.size + b.size + 1) / 2 + 1 = limit at hmeets
  refine @divides_searchMeeting 0 limit old new ⟨a, b, .start limit, .start limit⟩ hapart _ ?_
    (by omega) _ hmeets
  have hfits := Frontier.fits_start limit
  have hstart := Frontier.get_start limit 1
  exact ⟨hfits, hfits, hstart, hstart, fun _ => hstart, fun _ => hstart⟩

end Searches

end TrackingPlan.LineDiff
