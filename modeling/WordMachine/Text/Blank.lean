/-!
# Blank characters and lines

Texts are handled as lists of characters.  A blank is a character with the
Unicode property `White_Space`; lines end at a line feed, and a carriage
return right before it belongs to the line end.

## Main definitions

* `Text.isBlank` — the 25 characters that count as blank
* `Text.trim`, `Text.words` — cutting a text at its blanks
* `Text.lines` — cutting a text into lines
-/

namespace WordMachine.Text

/-- The characters with the Unicode property `White_Space`. -/
def isBlank (c : Char) : Bool :=
  let n := c.toNat
  (9 ≤ n && n ≤ 13) || n == 0x20 || n == 0x85 || n == 0xA0 || n == 0x1680
    || (0x2000 ≤ n && n ≤ 0x200A) || n == 0x2028 || n == 0x2029 || n == 0x202F
    || n == 0x205F || n == 0x3000

/-- The text without the blanks at its end. -/
def trimEnd (text : List Char) : List Char :=
  (text.reverse.dropWhile isBlank).reverse

/-- The text without the blanks at either end. -/
def trim (text : List Char) : List Char :=
  trimEnd (text.dropWhile isBlank)

/-- Collects the words of a text; `word` is the one being read, backwards. -/
def wordsFrom (word : List Char) : List Char → List (List Char)
  | [] => if word.isEmpty then [] else [word.reverse]
  | c :: rest =>
    if isBlank c then
      if word.isEmpty then wordsFrom [] rest else word.reverse :: wordsFrom [] rest
    else wordsFrom (c :: word) rest

/-- The longest blank-free pieces of a text, in order. -/
def words (text : List Char) : List (List Char) := wordsFrom [] text

/-- A finished line, read backwards, without one carriage return at its end. -/
def closeLine : List Char → List Char
  | '\r' :: line => line.reverse
  | line => line.reverse

/-- Collects the lines of a text; `line` is the one being read, backwards. -/
def linesFrom (line : List Char) : List Char → List (List Char)
  | [] => if line.isEmpty then [] else [line.reverse]
  | '\n' :: rest => closeLine line :: linesFrom [] rest
  | c :: rest => linesFrom (c :: line) rest

/-- The lines of a text without their ends.  A text that ends in a line feed
has no further line after it. -/
def lines (text : List Char) : List (List Char) := linesFrom [] text

/-- The number of bytes a text takes in UTF-8. -/
def byteSize : List Char → Nat
  | [] => 0
  | c :: rest => c.utf8Size + byteSize rest

/-- Whether every character is below code point 128. -/
def isAscii (text : List Char) : Bool := text.all fun c => c.toNat < 128

/-- The text after `head`, if it starts with it. -/
def after? (head : List Char) (text : List Char) : Option (List Char) :=
  match head, text with
  | [], rest => some rest
  | _ :: _, [] => none
  | h :: hs, c :: cs => if h = c then after? hs cs else none

end WordMachine.Text
