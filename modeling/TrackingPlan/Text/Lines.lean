/-!
# Lines and blanks

Text is cut into lines at line feeds, and one carriage return before a line
feed goes with it. Blanks are the characters of the Unicode property
`White_Space`.
-/

namespace TrackingPlan.Text

/-- The characters of the Unicode property `White_Space`. -/
def isBlank (c : Char) : Bool :=
  let code := c.toNat
  (0x09 ≤ code && code ≤ 0x0D) || code == 0x20 || code == 0x85 || code == 0xA0 ||
    code == 0x1680 || (0x2000 ≤ code && code ≤ 0x200A) || code == 0x2028 || code == 0x2029 ||
    code == 0x202F || code == 0x205F || code == 0x3000

/-- The text without the blanks at its end. -/
def trimEnd (text : List Char) : List Char :=
  (text.reverse.dropWhile isBlank).reverse

/-- The lines of a text, without their line ends. A line end at the end of the
text opens no further line. -/
def lines : List Char → List (List Char)
  | [] => []
  | '\n' :: rest => [] :: lines rest
  | '\r' :: '\n' :: rest => [] :: lines rest
  | c :: rest =>
    match lines rest with
    | [] => [[c]]
    | line :: others => (c :: line) :: others

/-- The items with the separator between them. -/
def join (separator : String) : List String → String
  | [] => ""
  | [item] => item
  | item :: next :: rest => item ++ separator ++ join separator (next :: rest)

/-- The text, that many times. -/
def times (count : Nat) (text : String) : String :=
  match count with
  | 0 => ""
  | count + 1 => text ++ times count text

/-- The parts of a text between the separators: one more than there are separators. -/
def splitOn (separator : Char) : List Char → List (List Char)
  | [] => [[]]
  | c :: rest =>
    if c = separator then [] :: splitOn separator rest
    else
      match splitOn separator rest with
      | [] => [[c]]
      | part :: others => (c :: part) :: others

/-- The segments of a `/`-separated text. -/
def segments (text : String) : List String :=
  (splitOn '/' text.toList).map String.ofList

end TrackingPlan.Text
