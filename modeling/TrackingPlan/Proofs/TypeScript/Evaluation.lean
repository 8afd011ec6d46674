import TrackingPlan.Dict
import TrackingPlan.TypeScript.Syntax

/-!
# What a function hands on

A generated function binds its constants and then calls with some of what is
bound. Evaluated on arguments, it has the values of this call. The members of an
object are evaluated from left to right: a later key takes the place of an
earlier one, and a spread copies all entries of its operand.
-/

namespace TrackingPlan

section Assign

variable {α : Type}

theorem lookup_assign (key : String) (value : α) (entries : List (String × α)) (name : String) :
    (assign key value entries).lookup name =
      if name = key then some value else entries.lookup name := by
  induction entries with
  | nil =>
      rw [assign, List.lookup_cons]
      by_cases hname : name = key
      · simp [hname]
      · rw [if_neg hname, beq_false_of_ne hname]
  | cons entry rest ih =>
      obtain ⟨first, old⟩ := entry
      rw [assign]
      by_cases hfirst : first = key
      · subst hfirst
        rw [if_pos rfl, List.lookup_cons, List.lookup_cons]
        by_cases hname : name = first
        · simp [hname]
        · rw [if_neg hname, beq_false_of_ne hname]
      · rw [if_neg hfirst, List.lookup_cons, List.lookup_cons]
        by_cases hname : name = first
        · simp [hname, hfirst]
        · rw [beq_false_of_ne hname]
          exact ih

/-- The entries with all of the others assigned, one after the other. -/
def assignAll (others entries : List (String × α)) : List (String × α) :=
  others.foldl (fun entries entry => assign entry.1 entry.2 entries) entries

/-- With distinct keys among them, what was assigned is what the others say. -/
theorem lookup_assignAll {others : List (String × α)} (hnodup : (others.map Prod.fst).Nodup)
    (entries : List (String × α)) (name : String) :
    (assignAll others entries).lookup name = (others.lookup name).or (entries.lookup name) := by
  induction others generalizing entries with
  | nil => rfl
  | cons entry rest ih =>
      obtain ⟨key, value⟩ := entry
      rw [List.map_cons, List.nodup_cons] at hnodup
      have hstep : assignAll ((key, value) :: rest) entries =
          assignAll rest (assign key value entries) := rfl
      rw [hstep, ih hnodup.2, lookup_assign]
      by_cases hname : name = key
      · subst hname
        have hnone : rest.lookup name = none := by
          rw [List.lookup_eq_none_iff]
          intro other hother
          refine bne_iff_ne.mpr fun heq => hnodup.1 ?_
          exact heq ▸ List.mem_map.mpr ⟨other, hother, rfl⟩
        rw [hnone, if_pos rfl, List.lookup_cons_self]
        rfl
      · rw [if_neg hname, List.lookup_cons, beq_false_of_ne hname]

end Assign

namespace TypeScript

/-- A value that a generated function is called with or hands on. -/
inductive Value where
  | undefined
  | null
  | literal (value : Literal)
  | array (items : List Value)
  | object (entries : List (String × Value))
  /-- A date or a function, which generated code passes on as it is. -/
  | foreign (tag : Nat)
  deriving Inhabited

def Value.string (text : String) : Value := .literal (.string text)

/-- The entries that a spread copies. Nothing else than an object or a value that is not there
is ever spread. -/
def Value.copied? : Value → Option (List (String × Value))
  | object entries => some entries
  | undefined => some []
  | null => some []
  | _ => none

/-- What can be read from a value under a name. -/
def Value.member? (name : String) : Value → Option Value
  | object entries => some ((entries.lookup name).getD undefined)
  | _ => none

mutual

/-- The value of an expression where names have values. Calls and functions have none. -/
def Expr.value? (bound : List (String × Value)) : Expr → Option Value
  | .name name => bound.lookup name
  | .literal value => some (.literal value)
  | .object members => (entries? bound [] members).map Value.object
  | .property object name => (object.value? bound).bind (Value.member? name)
  | .call .. => none
  | .arrow .. => none
  | .await _ => none

/-- The entries of an object with more members. -/
def entries? (bound entries : List (String × Value)) : List Member → Option (List (String × Value))
  | [] => some entries
  | .property key value :: rest => do
    let value ← value.value? bound
    entries? bound (assign key value entries) rest
  | .spread value :: rest => do
    let value ← value.value? bound
    let copied ← value.copied?
    entries? bound (assignAll copied entries) rest

end

/-- The arguments of a call, which may be awaited. -/
def Expr.arguments? : Expr → Option (List Expr)
  | .call _ arguments => some arguments
  | .await operand => operand.arguments?
  | _ => none

/-- The values that are handed to the first call, behind the constants that are bound before. -/
def handedOn? (bound : List (String × Value)) : List Statement → Option (List Value)
  | [] => none
  | .const name value :: rest => do
    let value ← value.value? bound
    handedOn? ((name, value) :: bound) rest
  | .expression value :: _ => do
    let arguments ← value.arguments?
    arguments.mapM (Expr.value? bound)

/-- What a function hands on for its arguments. Those that are left out are undefined. -/
def Arrow.handsOn? (function : Arrow) (arguments : List Value) : Option (List Value) :=
  handedOn? (function.parameters.mapIdx fun index parameter =>
    (parameter.name, arguments[index]?.getD .undefined)) function.body

end TypeScript

end TrackingPlan
