/-!
# Dictionaries in document order

A dictionary keeps its entries in the order in which their keys came first. A
later value for a key takes the place of the earlier one.
-/

namespace TrackingPlan

/-- The entries with the value at the key replaced, or a new entry at the end. -/
def assign {α : Type} (key : String) (value : α) : List (String × α) → List (String × α)
  | [] => [(key, value)]
  | (name, old) :: rest =>
    if name = key then (name, value) :: rest else (name, old) :: assign key value rest

theorem mem_keys_assign {α : Type} {key name : String} {value : α} {entries : List (String × α)}
    (h : name ∈ (assign key value entries).map Prod.fst) :
    name = key ∨ name ∈ entries.map Prod.fst := by
  induction entries with
  | nil => simp_all [assign]
  | cons entry rest ih =>
    obtain ⟨first, old⟩ := entry
    unfold assign at h
    split at h
    · exact .inr (by simpa using h)
    · simp only [List.map_cons, List.mem_cons] at h ⊢
      rcases h with h | h
      · exact .inr (.inl h)
      · exact (ih h).imp_right .inr

theorem nodup_assign {α : Type} {key : String} {value : α} {entries : List (String × α)}
    (h : (entries.map Prod.fst).Nodup) : ((assign key value entries).map Prod.fst).Nodup := by
  induction entries with
  | nil => simp [assign]
  | cons entry rest ih =>
    obtain ⟨first, old⟩ := entry
    simp only [List.map_cons, List.nodup_cons] at h
    unfold assign
    split
    · simpa using h
    · next hne =>
      simp only [List.map_cons, List.nodup_cons]
      refine ⟨fun hmem => ?_, ih h.2⟩
      rcases mem_keys_assign hmem with rfl | hmem
      · exact hne rfl
      · exact h.1 hmem

structure Dict (α : Type) where
  entries : List (String × α)
  nodup : (entries.map Prod.fst).Nodup

namespace Dict

variable {α : Type}

def empty : Dict α := ⟨[], List.nodup_nil⟩

instance : Inhabited (Dict α) := ⟨empty⟩

def insert (key : String) (value : α) (dict : Dict α) : Dict α :=
  ⟨assign key value dict.entries, nodup_assign dict.nodup⟩

def get? (key : String) (dict : Dict α) : Option α := dict.entries.lookup key

def keys (dict : Dict α) : List String := dict.entries.map Prod.fst

def ofList (entries : List (String × α)) : Dict α :=
  entries.foldl (fun dict entry => dict.insert entry.1 entry.2) empty

end Dict

end TrackingPlan
