import TrackingPlan.Text.Lines

/-!
# Documentation comments

A description becomes a block comment with one line for each of its lines.
The text cannot end the comment: its `*` `/` pairs are broken by a backslash.
-/

namespace TrackingPlan.TypeScript

/-- The text with every comment end broken, read from the left. -/
def breakCommentEnds : List Char → List Char
  | [] => []
  | '*' :: '/' :: rest => '*' :: '\\' :: '/' :: breakCommentEnds rest
  | c :: rest => c :: breakCommentEnds rest

def docLine (line : List Char) : List Char :=
  if line = [] then [' ', '*', '\n']
  else ' ' :: '*' :: ' ' :: (breakCommentEnds line ++ ['\n'])

/-- A block comment; blanks at the end of the text are left out. -/
def docComment (text : String) : String :=
  "/**\n" ++ String.ofList ((Text.lines (Text.trimEnd text.toList)).flatMap docLine) ++ " */\n"

end TrackingPlan.TypeScript
