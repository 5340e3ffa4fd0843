import ExprTree.Text.Columns
/-!
# Control sequences

Sequences that a terminal obeys and does not show. They start with an escape
character. A bracket opens a sequence that ends with a letter or a sign from `@` to
`~`; a closing bracket opens a command that ends with a bell, or with an escape and a
backslash; any other character is the whole rest of its sequence.
-/

namespace ExprTree.Text

inductive Mode where
  | text
  /-- After the escape character. -/
  | escape
  | sequence
  /-- Inside a command, and whether an escape was read right before. -/
  | command (closing : Bool)
deriving DecidableEq

namespace Mode

def next : Mode → Char → Mode
  | text, c => if c = '\x1b' then escape else text
  | escape, c => if c = '[' then sequence else if c = ']' then command false else text
  | sequence, c => if '@' ≤ c ∧ c ≤ '~' then text else sequence
  | command closing, c =>
      if c = '\x07' ∨ (c = '\\' ∧ closing) then text else command (c = '\x1b')

def shows (mode : Mode) (c : Char) : Bool :=
  mode = text && c ≠ '\x1b'

def columns (mode : Mode) (c : Char) : Nat :=
  if mode.shows c then Text.columns c else 0

end Mode

def shownAfter (mode : Mode) : List Char → List Char
  | [] => []
  | c :: rest =>
      if mode.shows c then c :: shownAfter (mode.next c) rest else shownAfter (mode.next c) rest

def columnsAfter (mode : Mode) : List Char → Nat
  | [] => 0
  | c :: rest => mode.columns c + columnsAfter (mode.next c) rest

end ExprTree.Text
