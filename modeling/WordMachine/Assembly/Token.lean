import WordMachine.Text.Blank

/-!
# Tokens of a line

A hash sign starts a comment that runs to the end of the line.  What stands
before it is cut into tokens at blanks and commas.  A token knows its column,
counted in bytes from one.

## Main definitions

* `Assembly.Token`, `Assembly.tokens` — the tokens of a line
* `Assembly.codeOf` — a line without its comment
-/

namespace WordMachine.Assembly

/-- A piece of a line and the column where it starts. -/
structure Token where
  chars : List Char
  column : Nat
  deriving DecidableEq, Repr

/-- The characters of a token as a text. -/
def Token.text (t : Token) : String := String.ofList t.chars

/-- The part of a line before its comment. -/
def codeOf (line : List Char) : List Char := line.takeWhile (· != '#')

/-- Whether a character ends a token. -/
def isSeparator (c : Char) : Bool := c == ',' || Text.isBlank c

/-- The token that was being read, if there is one. -/
def closeToken (start : Nat) (word : List Char) : List Token :=
  if word.isEmpty then [] else [⟨word.reverse, start + 1⟩]

/-- Cuts the text that starts at byte `offset`; `word` is the token being
read, backwards, and `start` the byte where it began. -/
def tokensFrom (offset start : Nat) (word : List Char) : List Char → List Token
  | [] => closeToken start word
  | c :: rest =>
    let next := offset + c.utf8Size
    if isSeparator c then closeToken start word ++ tokensFrom next next [] rest
    else tokensFrom next (if word.isEmpty then offset else start) (c :: word) rest

/-- The tokens of a line. -/
def tokens (line : List Char) : List Token := tokensFrom 0 0 [] (codeOf line)

end WordMachine.Assembly
