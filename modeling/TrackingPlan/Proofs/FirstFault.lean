import Mathlib.Data.List.Forall2
import TrackingPlan.Fault

/-!
# Runs over a list that stop at the first fault

A run over a list has all its results, or the fault of the first item that has
one. Whether it fails, and with what, is its verdict. A context is added to a
fault and changes nothing else.
-/

namespace TrackingPlan

variable {ε α β : Type}

theorem bind_eq_ok_iff {first : Except ε α} {next : α → Except ε β} {result : β} :
    first >>= next = .ok result ↔ ∃ value, first = .ok value ∧ next value = .ok result := by
  cases first with
  | error fault => simp [bind, Except.bind]
  | ok value => simp [bind, Except.bind]

theorem eq_ok_of_isOk [Inhabited α] {result : Except ε α} (hresult : result.isOk = true) :
    result = .ok (result.toOption.getD default) := by
  cases result with
  | error fault => cases hresult
  | ok value => rfl

theorem mapError_eq_ok_iff {κ : Type} {f : ε → κ} {result : Except ε α} {value : α} :
    result.mapError f = .ok value ↔ result = .ok value := by
  cases result <;> simp [Except.mapError]

/-- Results come item by item. -/
theorem mapM_eq_ok_iff {f : α → Except ε β} {items : List α} {results : List β} :
    items.mapM f = .ok results ↔
      List.Forall₂ (fun item result => f item = .ok result) items results := by
  induction items generalizing results with
  | nil => cases results <;> simp [pure, Except.pure]
  | cons item rest ih =>
      rw [List.mapM_cons]
      cases hitem : f item with
      | error fault => cases results <;> simp [bind, Except.bind, hitem]
      | ok result =>
          cases hrest : rest.mapM f with
          | error fault => cases results <;> simp [bind, Except.bind, ← ih, hitem, hrest]
          | ok others =>
              cases results <;>
                simp [bind, Except.bind, pure, Except.pure, ← ih, hitem, hrest]

/-- What can be told of a result from its item is the same for the whole run. -/
theorem map_eq_of_mem_mapM {γ : Type} {f : α → Except ε β} {items : List α} {results : List β}
    (hrun : items.mapM f = .ok results) {told : β → γ} {known : α → γ}
    (htold : ∀ item ∈ items, ∀ result, f item = .ok result → told result = known item) :
    results.map told = items.map known := by
  have hitems := mapM_eq_ok_iff.mp hrun
  clear hrun
  induction hitems with
  | nil => rfl
  | cons hitem _ ih =>
      rw [List.forall_mem_cons] at htold
      rw [List.map_cons, List.map_cons, htold.1 _ hitem, ih htold.2]

theorem map_eq_of_mapM {γ : Type} {f : α → Except ε β} {items : List α} {results : List β}
    (hrun : items.mapM f = .ok results) {told : β → γ} {known : α → γ}
    (htold : ∀ item result, f item = .ok result → told result = known item) :
    results.map told = items.map known :=
  map_eq_of_mem_mapM hrun fun item _ => htold item

/-- Each result is that of the item in its place. -/
theorem getElem?_of_mapM {f : α → Except ε β} {items : List α} {results : List β}
    (hrun : items.mapM f = .ok results) {index : Nat} {item : α} {result : β}
    (hitem : items[index]? = some item) (hresult : results[index]? = some result) :
    f item = .ok result := by
  have hitems := mapM_eq_ok_iff.mp hrun
  clear hrun
  induction hitems generalizing index with
  | nil => cases hitem
  | cons hfirst _ ih =>
      cases index with
      | zero =>
          cases hitem
          cases hresult
          exact hfirst
      | succ index => exact ih hitem hresult

/-- A run has as many results as items, each in the place of its item. -/
theorem mapM_eq_ok_iff_getElem? {f : α → Except ε β} {items : List α} {results : List β} :
    items.mapM f = .ok results ↔ items.length = results.length ∧
      ∀ (index : Nat) item result, items[index]? = some item → results[index]? = some result →
        f item = .ok result := by
  constructor
  · intro hrun
    exact ⟨(mapM_eq_ok_iff.mp hrun).length_eq, fun _ _ _ => getElem?_of_mapM hrun⟩
  · rintro ⟨hlength, hitems⟩
    refine mapM_eq_ok_iff.mpr (List.forall₂_iff_get.mpr ⟨hlength, fun index hitem hresult => ?_⟩)
    exact hitems index _ _ (List.getElem?_eq_getElem hitem) (List.getElem?_eq_getElem hresult)

theorem exists_getElem?_of_mapM {f : α → Except ε β} {items : List α} {results : List β}
    (hrun : items.mapM f = .ok results) {index : Nat} {item : α}
    (hitem : items[index]? = some item) :
    ∃ result, results[index]? = some result ∧ f item = .ok result := by
  obtain ⟨hlt, -⟩ := List.getElem?_eq_some_iff.mp hitem
  have hresult : index < results.length := (mapM_eq_ok_iff.mp hrun).length_eq ▸ hlt
  exact ⟨results[index], List.getElem?_eq_getElem hresult,
    getElem?_of_mapM hrun hitem (List.getElem?_eq_getElem hresult)⟩

theorem exists_of_mem_mapM {f : α → Except ε β} {items : List α} {results : List β}
    (hrun : items.mapM f = .ok results) {result : β} (hresult : result ∈ results) :
    ∃ item ∈ items, f item = .ok result := by
  have hitems := mapM_eq_ok_iff.mp hrun
  clear hrun
  induction hitems with
  | nil => cases hresult
  | cons hitem _ ih =>
      rcases List.mem_cons.mp hresult with rfl | hresult
      · exact ⟨_, List.mem_cons_self, hitem⟩
      · obtain ⟨item, hmem, hitem⟩ := ih hresult
        exact ⟨item, List.mem_cons_of_mem _ hmem, hitem⟩

theorem exists_mem_of_mapM {f : α → Except ε β} {items : List α} {results : List β}
    (hrun : items.mapM f = .ok results) {item : α} (hitem : item ∈ items) :
    ∃ result ∈ results, f item = .ok result := by
  have hitems := mapM_eq_ok_iff.mp hrun
  clear hrun
  induction hitems with
  | nil => cases hitem
  | cons hfirst _ ih =>
      rcases List.mem_cons.mp hitem with rfl | hitem
      · exact ⟨_, List.mem_cons_self, hfirst⟩
      · obtain ⟨result, hmem, hresult⟩ := ih hitem
        exact ⟨result, List.mem_cons_of_mem _ hmem, hresult⟩

theorem mapM_eq_ok_map {f : α → Except ε β} {result : α → β} {items : List α}
    (hitems : ∀ item ∈ items, f item = .ok (result item)) :
    items.mapM f = .ok (items.map result) := by
  induction items with
  | nil => rfl
  | cons item rest ih =>
      rw [List.forall_mem_cons] at hitems
      rw [List.mapM_cons, hitems.1, ih hitems.2]
      rfl

theorem mapM_congr {f g : α → Except ε β} {items : List α}
    (hitems : ∀ item ∈ items, f item = g item) : items.mapM f = items.mapM g := by
  induction items with
  | nil => rfl
  | cons item rest ih =>
      rw [List.forall_mem_cons] at hitems
      rw [List.mapM_cons, List.mapM_cons, hitems.1, ih hitems.2]

/-- The value at a key is the result of the entry with that key. -/
theorem find?_of_mapM {read : String × α → Except ε β} {keyOf : β → String}
    (hkeys : ∀ entry result, read entry = .ok result → keyOf result = entry.1)
    {entries : List (String × α)} {results : List β} (hrun : entries.mapM read = .ok results)
    (key : String) :
    results.find? (keyOf · == key) =
      (entries.lookup key).bind fun value => (read (key, value)).toOption := by
  have hitems := mapM_eq_ok_iff.mp hrun
  clear hrun
  induction hitems with
  | nil => rfl
  | @cons entry result _ _ hentry _ ih =>
      obtain ⟨name, value⟩ := entry
      have hname : keyOf result = name := hkeys _ _ hentry
      by_cases heq : name = key
      · subst heq
        rw [List.find?_cons_of_pos (by simp [hname]), List.lookup_cons_self]
        simp [hentry, Except.toOption]
      · have hne : (key == name) = false := by simpa using Ne.symm heq
        rw [List.find?_cons_of_neg (by simp [hname, heq]), ih, List.lookup_cons, hne]

theorem exists_find?_of_mapM {read : String × α → Except ε β} {keyOf : β → String}
    (hkeys : ∀ entry result, read entry = .ok result → keyOf result = entry.1)
    {entries : List (String × α)} {results : List β} (hrun : entries.mapM read = .ok results)
    {key : String} {value : α} (hentry : entries.lookup key = some value) :
    ∃ result, results.find? (keyOf · == key) = some result ∧ read (key, value) = .ok result := by
  obtain ⟨before, after, heq, -⟩ := List.lookup_eq_some_iff.mp hentry
  obtain ⟨result, -, hresult⟩ := exists_mem_of_mapM hrun (show (key, value) ∈ entries by simp [heq])
  refine ⟨result, ?_, hresult⟩
  rw [find?_of_mapM hkeys hrun, hentry, Option.bind_some, hresult]
  rfl

/-- There is a result and no fault. -/
def Succeeds (result : Except ε α) : Prop := ∃ value, result = .ok value

theorem succeeds_ok (value : α) : Succeeds (.ok value : Except ε α) := ⟨value, rfl⟩

theorem succeeds_bind {first : Except ε α} {next : α → Except ε β} (hfirst : Succeeds first)
    (hnext : ∀ value, Succeeds (next value)) : Succeeds (first >>= next) := by
  obtain ⟨value, rfl⟩ := hfirst
  exact hnext value

theorem succeeds_mapM {f : α → Except ε β} {items : List α}
    (hitems : ∀ item ∈ items, Succeeds (f item)) : Succeeds (items.mapM f) := by
  induction items with
  | nil => exact succeeds_ok []
  | cons item rest ih =>
      rw [List.forall_mem_cons] at hitems
      rw [List.mapM_cons]
      refine succeeds_bind hitems.1 fun result => ?_
      exact succeeds_bind (ih hitems.2) fun results => succeeds_ok (result :: results)

/-- What is left of a result when only its fault matters. -/
def verdict (result : Except ε α) : Except ε Unit := result.map fun _ => ()

@[simp] theorem verdict_ok (value : α) : verdict (.ok value : Except ε α) = .ok () := rfl

@[simp] theorem verdict_error (fault : ε) : verdict (.error fault : Except ε α) = .error fault := rfl

theorem verdict_eq_ok_iff {result : Except ε α} :
    verdict result = .ok () ↔ ∃ value, result = .ok value := by
  cases result with
  | error fault => simp
  | ok value => simp

theorem verdict_eq_error_iff {result : Except ε α} {fault : ε} :
    verdict result = .error fault ↔ result = .error fault := by
  cases result with
  | error other => simp
  | ok value => simp

/-- Only the faults are left in a verdict. -/
theorem verdict_congr {first : Except ε α} {second : Except ε β}
    (hfault : ∀ fault, first = .error fault ↔ second = .error fault) :
    verdict first = verdict second := by
  cases first with
  | error fault => rw [(hfault fault).mp rfl]; rfl
  | ok value =>
      cases second with
      | error fault => cases (hfault fault).mpr rfl
      | ok other => rfl

/-- A later part of a run adds its own verdict, if that does not depend on the result so far. -/
theorem verdict_bind {result : Except ε α} {next : α → Except ε β} {rest : Except ε Unit}
    (hnext : ∀ value, result = .ok value → verdict (next value) = rest) :
    verdict (result >>= next) = verdict result >>= fun _ => rest := by
  cases result with
  | error fault => rfl
  | ok value => exact hnext value rfl

theorem verdict_mapM (f : α → Except ε β) (items : List α) :
    verdict (items.mapM f) = forM items fun item => verdict (f item) := by
  induction items with
  | nil => rfl
  | cons item rest ih =>
      rw [List.mapM_cons, List.forM_cons, ← ih]
      refine verdict_bind fun result _ => ?_
      cases rest.mapM f <;> rfl

theorem forM_congr {f g : α → Except ε Unit} {items : List α}
    (hitems : ∀ item ∈ items, f item = g item) : forM items f = forM items g := by
  induction items with
  | nil => rfl
  | cons item rest ih =>
      rw [List.forall_mem_cons] at hitems
      rw [List.forM_cons, List.forM_cons, hitems.1, ih hitems.2]

/-- Items that stand for several checks each. -/
theorem forM_flatMap {γ : Type} (f : β → Except ε Unit) (parts : γ → List β) (items : List γ) :
    forM (items.flatMap parts) f = forM items fun item => forM (parts item) f := by
  induction items with
  | nil => rfl
  | cons item rest ih => rw [List.flatMap_cons, List.forM_append, ih, List.forM_cons]

theorem forM_eq_ok_iff {f : α → Except ε Unit} {items : List α} :
    forM items f = .ok () ↔ ∀ item ∈ items, f item = .ok () := by
  induction items with
  | nil => simp [pure, Except.pure]
  | cons item rest ih =>
      rw [List.forM_cons]
      cases hitem : f item with
      | error fault => simp [bind, Except.bind, hitem]
      | ok _ =>
          refine Iff.trans ih ?_
          simp [hitem]

/-- The fault of a run is that of an item behind items without any. -/
theorem forM_eq_error_iff {f : α → Except ε Unit} {items : List α} {fault : ε} :
    forM items f = .error fault ↔ ∃ before first after, items = before ++ first :: after ∧
      (∀ item ∈ before, f item = .ok ()) ∧ f first = .error fault := by
  induction items with
  | nil => simp [pure, Except.pure]
  | cons item rest ih =>
      rw [List.forM_cons]
      cases hitem : f item with
      | error other =>
          constructor
          · intro h
            exact ⟨[], item, rest, rfl, by simp, hitem.trans h⟩
          · rintro ⟨before, first, after, heq, hbefore, hfirst⟩
            cases before with
            | nil =>
                obtain ⟨rfl, -⟩ := List.cons.inj heq
                exact hitem.symm.trans hfirst
            | cons head tail =>
                obtain ⟨rfl, -⟩ := List.cons.inj heq
                rw [hbefore item List.mem_cons_self] at hitem
                cases hitem
      | ok _ =>
          refine Iff.trans ih ?_
          constructor
          · rintro ⟨before, first, after, rfl, hbefore, hfirst⟩
            refine ⟨item :: before, first, after, rfl, ?_, hfirst⟩
            intro other hother
            rcases List.mem_cons.mp hother with rfl | hother
            · exact hitem
            · exact hbefore other hother
          · rintro ⟨before, first, after, heq, hbefore, hfirst⟩
            cases before with
            | nil =>
                obtain ⟨rfl, -⟩ := List.cons.inj heq
                rw [hitem] at hfirst
                cases hfirst
            | cons head tail =>
                obtain ⟨rfl, rfl⟩ := List.cons.inj heq
                exact ⟨tail, first, after, rfl,
                  fun other hother => hbefore other (List.mem_cons_of_mem _ hother), hfirst⟩

/-- A run and a run of the images agree when their steps do. -/
theorem map_bind_eq {α' β' : Type} {image : α → α'} {image' : β → β'} {first : Except ε α}
    {first' : Except ε α'} {next : α → Except ε β} {next' : α' → Except ε β'}
    (hfirst : first.map image = first')
    (hnext : ∀ value, (next value).map image' = next' (image value)) :
    (first >>= next).map image' = first' >>= next' := by
  subst hfirst
  cases first with
  | error fault => rfl
  | ok value => exact hnext value

theorem map_mapM_eq {γ : Type} {image : β → γ} {f : α → Except ε β} {f' : α → Except ε γ}
    {items : List α} (hitems : ∀ item ∈ items, (f item).map image = f' item) :
    (items.mapM f).map (List.map image) = items.mapM f' := by
  induction items with
  | nil => rfl
  | cons item rest ih =>
      rw [List.forall_mem_cons] at hitems
      rw [List.mapM_cons, List.mapM_cons]
      exact map_bind_eq hitems.1 fun result =>
        map_bind_eq (ih hitems.2) fun results => rfl

/-- Runs with one image have the same fault, or results with one image. -/
theorem agree_of_map_eq {γ : Type} {image : α → γ} {image' : β → γ} {first : Except ε α}
    {second : Except ε β} (hmap : first.map image = second.map image') :
    (∀ fault, first = .error fault ↔ second = .error fault) ∧
      ∀ value, first = .ok value → ∃ other, second = .ok other ∧ image' other = image value := by
  cases first with
  | error fault =>
      cases second with
      | error other =>
          obtain rfl := Except.error.inj hmap
          exact ⟨fun _ => by simp, fun _ hvalue => by cases hvalue⟩
      | ok other => cases hmap
  | ok value =>
      cases second with
      | error fault => cases hmap
      | ok other =>
          refine ⟨fun _ => by simp, fun result hresult => ?_⟩
          obtain rfl := Except.ok.inj hresult
          exact ⟨other, rfl, (Except.ok.inj hmap).symm⟩

theorem map_inContext (image : α → β) (context : String) (result : Except Fault α) :
    (inContext context result).map image = inContext context (result.map image) := by
  cases result <;> rfl

theorem inContext_eq_ok_iff {context : String} {result : Except Fault α} {value : α} :
    inContext context result = .ok value ↔ result = .ok value := by
  cases result <;> simp [inContext]

theorem succeeds_inContext {context : String} {result : Except Fault α}
    (hresult : Succeeds result) : Succeeds (inContext context result) := by
  obtain ⟨value, rfl⟩ := hresult
  exact succeeds_ok value

theorem inContext_eq_error_iff {context : String} {result : Except Fault α}
    {fault : Fault} :
    inContext context result = .error fault ↔
      ∃ inner, result = .error inner ∧ fault = inner.within context := by
  cases result with
  | error inner =>
      simp only [inContext, Except.error.injEq]
      constructor
      · rintro rfl
        exact ⟨inner, rfl, rfl⟩
      · rintro ⟨_, rfl, rfl⟩
        rfl
  | ok value => simp [inContext]

theorem inContext_bind_pure (context : String) (result : Except Fault α)
    (next : α → β) :
    inContext context (result >>= fun value => pure (next value)) =
      inContext context result >>= fun value => pure (next value) := by
  cases result <;> rfl

theorem verdict_inContext (context : String) (result : Except Fault α) :
    verdict (inContext context result) = inContext context (verdict result) := by
  cases result <;> rfl

/-- The result of a computation inside of several constructs, the outermost first. -/
def inContexts (contexts : List String) (result : Except Fault α) : Except Fault α :=
  contexts.foldr inContext result

theorem inContexts_append (first second : List String) (result : Except Fault α) :
    inContexts (first ++ second) result = inContexts first (inContexts second result) :=
  List.foldr_append

@[simp] theorem inContexts_ok (contexts : List String) (value : α) :
    inContexts contexts (.ok value) = .ok value := by
  induction contexts with
  | nil => rfl
  | cons context rest ih => exact congrArg (inContext context) ih

@[simp] theorem inContexts_error (contexts : List String) (fault : Fault) :
    inContexts contexts (.error fault : Except Fault α) =
      .error ⟨contexts ++ fault.contexts, fault.cause⟩ := by
  induction contexts with
  | nil => rfl
  | cons context rest ih => exact congrArg (inContext context) ih

theorem inContexts_eq_error_iff {contexts : List String} {result : Except Fault α}
    {fault : Fault} :
    inContexts contexts result = .error fault ↔
      ∃ inner, result = .error inner ∧ fault = ⟨contexts ++ inner.contexts, inner.cause⟩ := by
  cases result with
  | error inner => simp [eq_comm]
  | ok value => simp

theorem forM_inContexts (contexts : List String) (f : α → Except Fault Unit) (items : List α) :
    (forM items fun item => inContexts contexts (f item)) = inContexts contexts (forM items f) := by
  induction items with
  | nil => exact (inContexts_ok contexts ()).symm
  | cons item rest ih =>
      rw [List.forM_cons, List.forM_cons, ih]
      cases f item with
      | error fault => simp [bind, Except.bind]
      | ok _ => simp [bind, Except.bind]

end TrackingPlan
