/-!
# JSON by lines

JSON values written on several lines, with two blanks of indentation for each
level. A value is the list of its lines.
-/

namespace ExprTree.Text.Json

def number (n : Nat) : List String :=
  [toString n]

def plain (s : String) : List String :=
  ["\"" ++ s ++ "\""]

def withComma : List String → List String
  | [] => []
  | [line] => [line ++ ","]
  | line :: lines => line :: withComma lines

def sequence : List (List String) → List String
  | [] => []
  | [value] => value
  | value :: values => withComma value ++ sequence values

def block (left right : String) (values : List (List String)) : List String :=
  match values with
  | [] => [left ++ right]
  | values => left :: (sequence values).map ("  " ++ ·) ++ [right]

def array (values : List (List String)) : List String :=
  block "[" "]" values

def member (name : String) : List String → List String
  | [] => []
  | line :: lines => ("\"" ++ name ++ "\": " ++ line) :: lines

def object (members : List (String × List String)) : List String :=
  block "\x7b" "\x7d" (members.map fun m => member m.1 m.2)

def text (value : List String) : String :=
  String.join (value.map (· ++ "\n"))

end ExprTree.Text.Json
