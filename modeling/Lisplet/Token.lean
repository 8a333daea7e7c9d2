import Lisplet.Quote

/-! Tokens: parentheses, quote marks, quoted texts, and atoms, which are the longest runs of
characters that delimit nothing. -/

namespace Lisplet

/-- The smallest pieces that a text is read in. -/
inductive Token where
  | openList
  | closeList
  | quote (kind : QuoteKind)
  | string (text : String)
  | atom (text : String)
  deriving DecidableEq

namespace Token

/-- The characters that separate tokens. -/
def isSpace (c : Char) : Bool := c == ' ' || c == '\t' || c == '\r' || c == '\n'

/-- The characters at which a comment ends. -/
def endsComment (c : Char) : Bool := c == '\n' || c == '\r'

/-- The characters that cannot stand in an atom. -/
def isDelimiter (c : Char) : Bool :=
  isSpace c || c == '(' || c == ')' || c == '\x27' || c == '\x60' || c == ',' || c == '\x22' ||
    c == ';'

end Token

end Lisplet
