import FlipLoop.Program.Reading
import FlipLoop.Text.Numeral

/-!
# Shorthand

In the shorthand a decimal number stands for the bars that name its variable. A text is cut into its
numbers, each as long as it goes, and its other characters one by one; only the numbers change, so
the positions that a later reading reports are those of the expanded text.
-/

namespace FlipLoop

namespace Shorthand

def maxVariable : Nat := 1 <<< 20

/-- Neighbouring digits belong to one number. -/
def joined (a b : Char) : Bool := a.isDigit && b.isDigit

def pieces (text : List Char) : List (List Char) :=
  text.splitBy joined

def expandPiece (piece : List Char) : Except SourceError (List Char) :=
  if piece.all Char.isDigit then
    match Text.boundedNumber? maxVariable piece with
    | some v => .ok (List.replicate (v + 1) Glyph.bar.char)
    | none => .error (.variableTooLarge (String.ofList piece))
  else
    .ok piece

/-- Expands all pieces in order; the first number that is too large ends it. -/
def expandChars (text : List Char) : Except SourceError (List Char) :=
  ((pieces text).mapM expandPiece).map List.flatten

def expand (source : String) : Except SourceError String :=
  (expandChars source.toList).map String.ofList

end Shorthand

def Program.ofShorthand (source : String) : Except SourceError Program :=
  (Shorthand.expand source).bind Program.ofSource

end FlipLoop
