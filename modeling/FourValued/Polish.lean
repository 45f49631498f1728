import FourValued.Token

/-!
# Polish notation

A text of Polish notation is a list of tokens in which each operator stands before its operands. It is
written compactly, one character a token, or with single spaces between the tokens.
-/

namespace FourValued

abbrev Polish := List Token

namespace Polish

def chars (ts : Polish) : List Char := ts.map Token.char

def text (ts : Polish) : String := String.ofList ts.chars

def spaced (ts : Polish) : String := " ".intercalate (ts.map Token.text)

def letters (ts : Polish) : List Letter := ts.filterMap Token.letter?

end Polish

end FourValued
