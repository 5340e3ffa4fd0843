import ExprTree.Text.BreakClass
/-!
# Places for line breaks

Where a text may be broken into lines, after the line breaking rules of Unicode.
A character is compared with what stands in front of it: a mark counts as part of
the character that it combines with, and spaces are remembered beside the
character before them. The rules are tried in order, and the first one that
applies decides.
-/

namespace ExprTree.Text

namespace BreakClass

def isLineEnd : BreakClass → Bool
  | hardBreak | carriageReturn | lineFeed | nextLine => true
  | _ => false

def isAdded : BreakClass → Bool
  | mark | joiner => true
  | _ => false

/-- Marks that have nothing to be added to are ordinary characters. -/
def alone (cls : BreakClass) : BreakClass :=
  if cls.isAdded then ordinary else cls

/-- Closing punctuation and separators, which stay with what they end. -/
def isEnding : BreakClass → Bool
  | closing | closingBracket | exclamation | separator | solidus => true
  | _ => false

def isOpening : BreakClass → Bool
  | opening | wideOpening => true
  | _ => false

def isClosing : BreakClass → Bool
  | closing | closingBracket => true
  | _ => false

def isLetter : BreakClass → Bool
  | ordinary | hebrewLetter => true
  | _ => false

def isUnit : BreakClass → Bool
  | unitBefore | unitAfter => true
  | _ => false

def isPicture : BreakClass → Bool
  | ideograph | pictureBase | skinTone => true
  | _ => false

def isHangul : BreakClass → Bool
  | leadingJamo | vowelJamo | trailingJamo | openSyllable | closedSyllable => true
  | _ => false

def inOneSyllable : BreakClass → BreakClass → Bool
  | leadingJamo, next => next.isHangul && next != trailingJamo
  | vowelJamo, next | openSyllable, next => next == vowelJamo || next == trailingJamo
  | trailingJamo, next | closedSyllable, next => next == trailingJamo
  | _, _ => false

def inOneNumber (last next : BreakClass) : Bool :=
  (last.isClosing || last == digit) && next.isUnit
    || last.isUnit && (next.isOpening || next == digit)
    || (last == hyphen || last == separator || last == digit || last == solidus) && next == digit

def inOneWord (last next : BreakClass) : Bool :=
  last.isLetter && (next.isLetter || next == digit || next.isUnit || next == opening)
    || (last == digit || last.isUnit || last == separator || last == closingBracket)
      && next.isLetter
    || last == digit && next == opening
    || last == closingBracket && next == digit
    || last == solidus && next == hebrewLetter

def staysWith (last next : BreakClass) : Bool :=
  next == leader
    || inOneWord last next
    || inOneNumber last next
    || inOneSyllable last next
    || last == unitBefore && (next.isPicture || next.isHangul)
    || (last.isPicture || last.isHangul) && next == unitAfter
    || last == pictureBase && next == skinTone

end BreakClass

open BreakClass

structure BreakContext where
  /-- The last character that is neither a space nor added to another one; none at the
  start of a line. -/
  last? : Option BreakClass
  /-- Whether spaces were read after it. -/
  spaced : Bool
  /-- Whether a joiner was read right after it. -/
  joined : Bool
  /-- Whether it is a hyphen after a Hebrew letter. -/
  afterHebrew : Bool
  /-- Whether it is the first half of a flag. -/
  halfFlag : Bool

namespace BreakContext

def start : BreakContext :=
  ⟨none, false, false, false, false⟩

/-- Whether the last character has a property, no matter what spaces follow it. -/
def lastIs (ctx : BreakContext) (p : BreakClass → Bool) : Bool :=
  ctx.last?.any p

def touches (ctx : BreakContext) (p : BreakClass → Bool) : Bool :=
  !ctx.spaced && ctx.lastIs p

/-- Whether a mark or joiner is added to the character in front. -/
def adds (ctx : BreakContext) (next : BreakClass) : Bool :=
  next.isAdded && ctx.touches fun last => !last.isLineEnd && last != zeroWidthSpace

def allowsAlone (ctx : BreakContext) (next : BreakClass) : Bool :=
  if next == wordJoiner || ctx.touches (fun last => last == wordJoiner || last == glue) then false
  else if next == glue && ctx.touches (fun last => last != breakAfter && last != hyphen) then false
  else if next.isEnding || ctx.lastIs isOpening then false
  else if ctx.lastIs (· == quotation) && next.isOpening then false
  else if ctx.lastIs isClosing && next == nonStarter then false
  else if ctx.lastIs (· == dash) && next == dash then false
  else if ctx.spaced then true
  else if next == quotation || ctx.lastIs (· == quotation) then false
  else if next == contingent || ctx.lastIs (· == contingent) then true
  else if next == breakAfter || next == hyphen || next == nonStarter then false
  else if ctx.lastIs (· == breakBefore) || ctx.afterHebrew then false
  else if ctx.halfFlag && next == regionalIndicator then false
  else !ctx.lastIs fun last => last.staysWith next

def allows (ctx : BreakContext) (next : BreakClass) : Bool :=
  if ctx.last?.isNone && !ctx.spaced then false
  else if ctx.touches isLineEnd then
    !(ctx.lastIs (· == carriageReturn) && next == lineFeed)
  else if next.isLineEnd || next == space || next == zeroWidthSpace then false
  else if ctx.lastIs (· == zeroWidthSpace) then true
  else if ctx.joined || ctx.adds next then false
  else ctx.allowsAlone next.alone

def read (ctx : BreakContext) (next : BreakClass) : BreakContext :=
  let ctx := if ctx.touches isLineEnd then start else ctx
  if next == space then
    { ctx with spaced := true, joined := false }
  else if ctx.adds next then
    { ctx with joined := next == joiner }
  else
    { last? := some next.alone
      spaced := false
      joined := next == joiner
      afterHebrew := ctx.touches (· == hebrewLetter) && (next == hyphen || next == breakAfter)
      halfFlag :=
        next == regionalIndicator && !(ctx.touches (· == regionalIndicator) && ctx.halfFlag) }

end BreakContext

def breaksBefore (ctx : BreakContext) : List Char → List Bool
  | [] => []
  | c :: rest => ctx.allows (.of c) :: breaksBefore (ctx.read (.of c)) rest

/-- For each character of a text whether the text may be broken after it. The text
ends after its last character, so that is a place for a break. -/
def breaksAfter (text : List Char) : List Bool :=
  match breaksBefore .start text with
  | [] => []
  | _ :: rest => rest ++ [true]

end ExprTree.Text
