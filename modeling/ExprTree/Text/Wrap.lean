import ExprTree.Text.Breaks
import ExprTree.Text.Escape
/-!
# Wrapping of lines

A line is cut into words where it may be broken, and the words are laid out in
lines of a given width so that the total cost is least. Every line costs
something, a line that is too wide costs much, a line before the last one costs
the square of what it leaves free, and a last line of one short word costs a
little. Control sequences take no columns and are never cut.
-/

namespace ExprTree.Text

structure Fragment where
  word : List Char
  blanks : Nat
  columns : Nat

def Fragment.ofText (text : List Char) : Fragment :=
  let backwards := text.reverse
  let word := (backwards.dropWhile (· = ' ')).reverse
  ⟨word, (backwards.takeWhile (· = ' ')).length, columnsAfter .text word⟩

/-! ## Words -/

def softHyphen : Char := '\u00ad'

def withdrawLast (places : List Bool) : List Bool :=
  (places.foldr (fun place rest => ((place && rest.2) :: rest.1, place || rest.2)) ([], false)).1

/-- For each character of a text whether a word ends after it. Words are not divided at
their hyphens. The last place is left to the end of the line, so the last two words of a
line that ends with a hyphen are one. -/
def wordEnds (text : List Char) : List Bool :=
  withdrawLast <|
    List.zipWith (fun c place => place && c ≠ '-' && c ≠ softHyphen) text (breaksAfter text)

/-- Cut `rest` into words after a part of a word read backwards. There is one of `ends` for
each character that is shown. -/
def wordsAfter (word : List Char) (mode : Mode) :
    (rest : List Char) → (ends : List Bool) → List (List Char)
  | [], _ => if word.isEmpty then [] else [word.reverse]
  | c :: rest, ends =>
      if mode.shows c then
        match ends with
        | true :: ends => (c :: word).reverse :: wordsAfter [] (mode.next c) rest ends
        | _ => wordsAfter (c :: word) (mode.next c) rest ends.tail
      else
        wordsAfter (c :: word) (mode.next c) rest ends

def fragments (line : List Char) : List Fragment :=
  (wordsAfter [] .text line (wordEnds (shownAfter .text line))).map .ofText

/-! ## Pieces of words -/

/-- Cut a word before each character that makes it too wide, after a piece read backwards
and its columns. A piece without columns is never too wide. -/
def piecesAfter (width blanks : Nat) (piece : List Char) (used : Nat) (mode : Mode) :
    (rest : List Char) → List Fragment
  | [] => [⟨piece.reverse, blanks, used⟩]
  | c :: rest =>
      let now := used + mode.columns c
      if mode.shows c && 0 < used && width < now then
        ⟨piece.reverse, 0, used⟩
          :: piecesAfter width blanks [c] (mode.columns c) (mode.next c) rest
      else
        piecesAfter width blanks (c :: piece) now (mode.next c) rest

/-- The fragment itself, or pieces of it if it is wider than `width`; the blanks
stay with the last piece. -/
def Fragment.pieces (width : Nat) (f : Fragment) : List Fragment :=
  piecesAfter width f.blanks [] 0 .text f.word

/-! ## Layout -/

/-- A choice of lines: how many fragments each takes, and what they cost. -/
structure Layout where
  cost : Nat
  counts : List Nat

def lineCost (width used count : Nat) (isLast : Bool) : Nat :=
  let width := max 1 width
  1000
    + if width < used then 2500 * (used - width)
      else if !isLast then (width - used) * (width - used)
      else if count = 1 ∧ 4 * used < width then 25
      else 0

/-- The layouts that start with a line of the fragments seen so far, or of these
and more from `rest`. The best layouts of what is left after each of these lines
are given in `later`. Two lines are cheaper than one that is more than twice as
wide as allowed, so no such line is tried after a shorter one. -/
def candidates (width used blanks count : Nat) :
    (rest : List Fragment) → (later : List Layout) → List Layout
  | _, [] => []
  | [], next :: _ => [⟨lineCost width used count true + next.cost, count :: next.counts⟩]
  | f :: rest, next :: later =>
      let longer := used + blanks + f.columns
      ⟨lineCost width used count false + next.cost, count :: next.counts⟩
        :: if 2 * max 1 width < longer then []
          else candidates width longer f.blanks (count + 1) rest later

def cheapest : Layout → List Layout → Layout
  | best, [] => best
  | best, next :: rest => cheapest (if next.cost < best.cost then next else best) rest

/-- The best layouts of a list of fragments and of its ends, longest first. -/
def layouts (width : Nat) : List Fragment → List Layout
  | [] => [⟨0, []⟩]
  | f :: rest =>
      let later := layouts width rest
      match candidates width f.columns f.blanks 1 rest later with
      | [] => later
      | first :: others => cheapest first others :: later

def divide {α : Type} : (counts : List Nat) → List α → List (List α)
  | [], _ => []
  | n :: counts, xs => xs.take n :: divide counts (xs.drop n)

def joined : List Fragment → List Char
  | [] => []
  | [f] => f.word
  | f :: rest => f.word ++ List.replicate f.blanks ' ' ++ joined rest

def layOut (width : Nat) (fs : List Fragment) : List (List Char) :=
  match layouts width fs with
  | [] => []
  | best :: _ => (divide best.counts fs).map joined

/-! ## Lines with indentation -/

/-- Wrap a line to a width. Its indentation is kept in front of every line of the
result. An indented line may also start with an empty one, and a line without
indentation that is shorter than the width stays as it is. -/
def wrap (width : Nat) (line : List Char) : List (List Char) :=
  let indent := line.takeWhile (· = ' ')
  let content := line.dropWhile (· = ' ')
  let free := width - indent.length
  let fs := (fragments content).flatMap (Fragment.pieces free)
  if indent.isEmpty then
    if (String.ofList content).utf8ByteSize < width then
      [(content.reverse.dropWhile (· = ' ')).reverse]
    else
      layOut free fs
  else
    (layOut free (⟨[], 0, 0⟩ :: fs)).map (indent ++ ·)

end ExprTree.Text
