import TrackingPlan.Toml.Value
import TrackingPlan.Toml.Numeral

/-!
# Tables that stand for dates

A date or a time may be written as a table. Its first key says so, and the text
there is the date; the other entries are not looked at, whatever they hold.
-/

namespace TrackingPlan.Toml

/-- The first key of a table that stands for a date or a time. -/
def dateKey : String := "$__toml_private_datetime"

/-- What a table gives as its date, if it stands for one. -/
def dateEntry? : List (String × Value) → Option Value
  | (key, value) :: _ => if key = dateKey then some value else none
  | [] => none

/-- A date that a table gives must be a text that spells one. -/
def Value.ofDateEntry (value : Value) : Except String Value :=
  match value.text? with
  | some text => if isQuotedDateTime text.toList then .ok .other else .error "invalid datetime"
  | none => .error "expected a datetime"

/-- The value with dates in place of the tables that stand for them. -/
def Value.withDates (value : Value) : Except String Value :=
  match value with
  | .array items => return .array (← itemsWithDates items)
  | .inlineTable dotted entries =>
    match dateEntry? entries with
    | some date => date.ofDateEntry
    | none => return .inlineTable dotted (← entriesWithDates entries)
  | .table kind entries =>
    match dateEntry? entries with
    | some date => date.ofDateEntry
    | none => return .table kind (← entriesWithDates entries)
  | .tables members => return .array (← tablesWithDates members)
  | value => .ok value
where
  itemsWithDates : List Value → Except String (List Value)
    | [] => .ok []
    | item :: rest => return (← item.withDates) :: (← itemsWithDates rest)
  entriesWithDates : List (String × Value) → Except String (List (String × Value))
    | [] => .ok []
    | (key, value) :: rest => return (key, ← value.withDates) :: (← entriesWithDates rest)
  tablesWithDates : List (List (String × Value)) → Except String (List Value)
    | [] => .ok []
    | entries :: rest => do
      let table ← match dateEntry? entries with
        | some date => date.ofDateEntry
        | none => pure (.table .explicit (← entriesWithDates entries))
      return table :: (← tablesWithDates rest)

end TrackingPlan.Toml
