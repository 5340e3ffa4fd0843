import ExprTree.Text.Lines
import ExprTree.Text.Wrap
/-!
# Notices

Errors as they are shown to a user: a red title line, and a message wrapped to
the width of the page.
-/

namespace ExprTree

structure Notice where
  title : String
  message : Option String

namespace Notice

def width : Nat := 60

def leadingDashes : Nat := 10

def dashes (n : Nat) : String :=
  String.ofList (List.replicate n '-')

/-- The title between dashes, in red. Its length is measured in bytes. -/
def titleLine (title : String) : String :=
  "\x1b[1;31m" ++ dashes leadingDashes ++ " " ++ title ++ " "
    ++ dashes (width - (2 + title.utf8ByteSize + leadingDashes)) ++ "\x1b[0m"

def messageLines (message : String) : List String :=
  ((Text.lines message.toList).flatMap (Text.wrap width)).map String.ofList

def text (notice : Notice) : String :=
  let body :=
    match notice.message with
    | some message => "" :: messageLines message
    | none => []
  String.join ((["", titleLine notice.title] ++ body ++ [""]).map (· ++ "\n"))

end Notice

end ExprTree
