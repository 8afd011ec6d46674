import TrackingPlan.TypeScript.Printer

/-!
# Texts of modules

The text of two lists of items is that of the first, what sets its last item apart from
the next one, and that of the second. Nothing sets a comment apart from what follows it,
so an export is on the line under its comment, whatever there is before and behind them.
-/

namespace TrackingPlan.TypeScript

namespace Item

def isComment : Item → Bool
  | .comment _ => true
  | _ => false

def isImport : Item → Bool
  | .imported _ => true
  | _ => false

/-- All items but comments and imports export something. -/
def isExport (item : Item) : Bool := !item.isComment && !item.isImport

theorem isComment_of_isExport {item : Item} (hexport : item.isExport = true) :
    item.isComment = false := by
  cases item with
  | comment => cases hexport
  | imported | typeAlias | const | defaultExport => rfl

theorem exists_toText_of_isExport {item : Item} (hexport : item.isExport = true) :
    ∃ body, item.toText = "export " ++ body := by
  cases item with
  | imported | comment => cases hexport
  | typeAlias name type =>
      refine ⟨"type " ++ name ++ " = " ++ type.toText ++ ";\n", ?_⟩
      change "export " ++ "type " ++ name ++ " = " ++ type.toText ++ ";\n" = _
      simp only [String.append_assoc]
  | const name value =>
      refine ⟨"const " ++ name ++ " = " ++ value.toText ++ ";\n", ?_⟩
      change "export " ++ "const " ++ name ++ " = " ++ value.toText ++ ";\n" = _
      simp only [String.append_assoc]
  | defaultExport value =>
      refine ⟨"default " ++ value.toText ++ ";\n", ?_⟩
      change "export " ++ "default " ++ value.toText ++ ";\n" = _
      simp only [String.append_assoc]

end Item

section Appending

theorem separator_eq (last next : Item) : separator last next =
    if last.isComment ∨ last.isImport ∧ next.isImport then "" else "\n" := by
  cases last <;> cases next <;> rfl

/-- By induction on the first items, whatever the previous one is: it is the last of all when
there are no others. -/
theorem itemsTextAfter_append (previous next : Item) (first rest : List Item) :
    itemsTextAfter previous (first ++ next :: rest) = itemsTextAfter previous first ++
      separator ((previous :: first).getLast (List.cons_ne_nil _ _)) next ++
        moduleText (next :: rest) := by
  induction first generalizing previous with
  | nil => simp [itemsTextAfter, moduleText, String.append_assoc]
  | cons item first ih =>
      rw [List.cons_append, itemsTextAfter, itemsTextAfter, ih,
        List.getLast_cons (List.cons_ne_nil item first)]
      simp only [String.append_assoc]

theorem moduleText_append {first second : List Item} (hfirst : first ≠ []) (hsecond : second ≠ []) :
    moduleText (first ++ second) = moduleText first ++
      separator (first.getLast hfirst) (second.head hsecond) ++ moduleText second := by
  obtain ⟨item, first, rfl⟩ := List.exists_cons_of_ne_nil hfirst
  obtain ⟨next, rest, rfl⟩ := List.exists_cons_of_ne_nil hsecond
  rw [List.cons_append, moduleText, itemsTextAfter_append]
  simp only [moduleText, String.append_assoc, List.head_cons]

example : moduleText ([.imported (.allAs "shared" "./shared-definitions"),
      .imported (.defaultAs "implementation" "./analytics"), .comment "User id"] ++
    [.typeAlias "userId" (.primitive .string), .typeAlias "Other" (.primitive .string)]) =
    "import * as shared from \"./shared-definitions\";\n" ++
      "import implementation from \"./analytics\";\n\n/**\n * User id\n */\n" ++
      "export type userId = string;\n\nexport type Other = string;\n" := rfl

theorem exists_moduleText_concat (before : List Item) (last : Item) :
    ∃ front, moduleText (before ++ [last]) = front ++ last.toText := by
  by_cases hbefore : before = []
  · exact ⟨"", by simp [hbefore, moduleText, itemsTextAfter]⟩
  · rw [moduleText_append hbefore (List.cons_ne_nil last [])]
    refine ⟨moduleText before ++ separator (before.getLast hbefore) last, ?_⟩
    simp [moduleText, itemsTextAfter]

end Appending

section Comments

/-- Between these items of a module, the item is printed on the line under its comment. -/
structure PrintedUnder (before : List Item) (text : String) (item : Item) (rest : List Item) :
    Prop where
  text_eq : ∃ front back, moduleText (before ++ [.comment text]) = front ++ docComment text ∧
    moduleText (before ++ .comment text :: item :: rest) =
      front ++ docComment text ++ item.toText ++ back
  comment_closes : ∃ opening, docComment text = opening ++ " */\n"
  item_exports : ∃ body, item.toText = "export " ++ body

theorem printedUnder_of_isExport (before : List Item) (text : String) {item : Item}
    (hexport : item.isExport = true) (rest : List Item) : PrintedUnder before text item rest where
  text_eq := by
    obtain ⟨front, hfront⟩ := exists_moduleText_concat before (.comment text)
    have happend := moduleText_append
      (List.append_ne_nil_of_right_ne_nil before (List.cons_ne_nil (.comment text) []))
      (List.cons_ne_nil item rest)
    have hseparator : separator (.comment text) item = "" := rfl
    rw [List.append_assoc, List.singleton_append, hfront, List.getLast_concat,
      List.head_cons, hseparator, String.append_empty, moduleText, ← String.append_assoc] at happend
    exact ⟨front, itemsTextAfter item rest, hfront, happend⟩
  comment_closes := ⟨_, rfl⟩
  item_exports := Item.exists_toText_of_isExport hexport

/-- Every comment among the items is followed by an export that it describes. -/
inductive Attached (describes : String → Item → Prop) : List Item → Prop where
  | nil : Attached describes []
  | uncommented {item : Item} {rest : List Item} (hitem : item.isComment = false)
      (hrest : Attached describes rest) : Attached describes (item :: rest)
  | commented {text : String} {item : Item} {rest : List Item} (hdescribes : describes text item)
      (hexport : item.isExport = true) (hrest : Attached describes rest) :
      Attached describes (.comment text :: item :: rest)

namespace Attached

variable {describes : String → Item → Prop} {items : List Item}

theorem append {first second : List Item} (hfirst : Attached describes first)
    (hsecond : Attached describes second) : Attached describes (first ++ second) := by
  induction hfirst with
  | nil => exact hsecond
  | uncommented hitem _ ih => exact .uncommented hitem ih
  | commented hdescribes hexport _ ih => exact .commented hdescribes hexport ih

theorem flatMap {α : Type} {entries : List α} {itemsOf : α → List Item}
    (hentries : ∀ entry ∈ entries, Attached describes (itemsOf entry)) :
    Attached describes (entries.flatMap itemsOf) := by
  induction entries with
  | nil => exact .nil
  | cons entry rest ih =>
      rw [List.forall_mem_cons] at hentries
      exact hentries.1.append (ih hentries.2)

theorem of_no_comments (hitems : ∀ item ∈ items, item.isComment = false) :
    Attached describes items := by
  induction items with
  | nil => exact .nil
  | cons item rest ih =>
      rw [List.forall_mem_cons] at hitems
      exact .uncommented hitems.1 (ih hitems.2)

/-- Behind a comment there is neither the end of the items nor another comment or an import. -/
theorem exists_of_comment (hitems : Attached describes items) {before after : List Item}
    {text : String} (heq : items = before ++ .comment text :: after) :
    ∃ item rest, after = item :: rest ∧ describes text item ∧ item.isExport = true := by
  -- An item that is skipped is no comment, and the export behind a comment is none either.
  induction hitems generalizing before with
  | nil => simp at heq
  | uncommented hitem _ ih =>
      cases before with
      | nil =>
          obtain ⟨rfl, -⟩ := List.cons.inj heq
          cases hitem
      | cons first before => exact ih (List.cons.inj heq).2
  | commented hdescribes hexport _ ih =>
      match before with
      | [] =>
          obtain ⟨⟨⟩, rfl⟩ := List.cons.inj heq
          exact ⟨_, _, rfl, hdescribes, hexport⟩
      | [first] =>
          obtain ⟨-, rfl, -⟩ : _ ∧ _ ∧ _ := by simpa using heq
          cases hexport
      | first :: second :: before => exact ih (List.cons.inj (List.cons.inj heq).2).2

end Attached

end Comments

end TrackingPlan.TypeScript
