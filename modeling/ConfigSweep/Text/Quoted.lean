import ConfigSweep.Text.Blank
import ConfigSweep.Text.Glyphless

/-!
# Quoted texts in messages

A text shown in a message stands between quotes. Quotes, backslashes and the common controls are
escaped by letter, other characters without a glyph of their own by number.
-/

namespace ConfigSweep.Text

/-- The letter that stands for a character behind a backslash in a message. -/
def messageLetter? : Char → Option Char
  | '\x00' => some '0'
  | '\t' => some 't'
  | '\r' => some 'r'
  | '\n' => some 'n'
  | '"' => some '"'
  | '\\' => some '\\'
  | _ => none

def isGlyphless (c : Char) : Bool :=
  c.toNat < 0x20 || inRanges glyphlessRanges c.toNat

def shown (c : Char) : List Char :=
  match messageLetter? c with
  | some l => ['\\', l]
  | none =>
    if isGlyphless c then '\\' :: 'u' :: '\x7b' :: Nat.toDigits 16 c.toNat ++ ['\x7d'] else [c]

def quoted (text : String) : String :=
  String.ofList ('"' :: text.toList.flatMap shown ++ ['"'])

end ConfigSweep.Text
