/-!
# Lines of a text

The division of a text into lines. A line ends with a line feed, and a carriage
return right before it belongs to the ending. Nothing after the last line feed
is no line.
-/

namespace ExprTree.Text

/-- Drop a carriage return at the end of a line that is given backwards. -/
def dropReturn : List Char → List Char
  | '\r' :: line => line
  | line => line

/-- The lines of `rest`, with the characters of `line` read already, last one first. -/
def linesAfter (line : List Char) : (rest : List Char) → List (List Char)
  | [] => if line.isEmpty then [] else [line.reverse]
  | '\n' :: rest => (dropReturn line).reverse :: linesAfter [] rest
  | c :: rest => linesAfter (c :: line) rest

def lines (text : List Char) : List (List Char) :=
  linesAfter [] text

end ExprTree.Text
