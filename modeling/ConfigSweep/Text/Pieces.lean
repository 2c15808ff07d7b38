/-!
# Searching and cutting texts

Texts are searched and cut as lists of characters. Occurrences of a separator are found from the
left and do not overlap.
-/

namespace ConfigSweep.Text

/-- `pattern` occurs somewhere in the text. -/
def contains (pattern : List Char) : List Char → Bool
  | [] => pattern.isEmpty
  | c :: cs => pattern.isPrefixOf (c :: cs) || contains pattern cs

/-- What follows the first occurrence of `pattern`. -/
def after? (pattern : List Char) : List Char → Option (List Char)
  | [] => if pattern.isEmpty then some [] else none
  | c :: cs =>
    if pattern.isPrefixOf (c :: cs) then some ((c :: cs).drop pattern.length) else after? pattern cs

/-- What precedes the last occurrence of the character `c`. -/
def beforeLast? (c : Char) : List Char → Option (List Char)
  | [] => none
  | d :: ds =>
    match beforeLast? c ds with
    | some before => some (d :: before)
    | none => if d = c then some [] else none

/-- What follows `stem`, if the text starts with it. -/
def dropStem? (stem text : List Char) : Option (List Char) :=
  if stem.isPrefixOf text then some (text.drop stem.length) else none

/-- Puts a character in front of the first piece. -/
def extendFirst (c : Char) : List (List Char) → List (List Char)
  | [] => [[c]]
  | piece :: pieces => (c :: piece) :: pieces

/-- The pieces between the occurrences of `separator`, after skipping some characters that belong
to an occurrence already found. -/
def piecesFrom (separator : List Char) : Nat → List Char → List (List Char)
  | _, [] => [[]]
  | skip + 1, _ :: cs => piecesFrom separator skip cs
  | 0, c :: cs =>
    if separator.isPrefixOf (c :: cs) then [] :: piecesFrom separator (separator.length - 1) cs
    else extendFirst c (piecesFrom separator 0 cs)

/-- The pieces between the occurrences of `separator`, one more than there are occurrences. -/
def pieces (separator text : List Char) : List (List Char) :=
  piecesFrom separator 0 text

/-- The pieces in the order met from the right, where occurrences are found from the right. -/
def piecesFromRight (separator text : List Char) : List (List Char) :=
  (pieces separator.reverse text.reverse).map List.reverse

end ConfigSweep.Text
