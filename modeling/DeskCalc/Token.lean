import DeskCalc.Position

/-!
# Tokens

A token is a kind, the position of its first character and, for names and numbers, the spelling it
had in the text.  Keywords, signs and the end of the text have no spelling of their own.

* `Token.Kind.ofKeyword?`   the kind of a keyword;
* `Token.Kind.ofSign?`      the kind of a one-character sign;
* `Token.text`              what a message calls the token: its spelling, else its kind;
* `Token.render`            the token in a listing.
-/

namespace DeskCalc

inductive Token.Kind
  | intType
  | floatType
  | print
  | name
  | integer
  | decimal
  | assign
  | plus
  | minus
  | times
  | divide
  | semicolon
  | endOfText
deriving DecidableEq

namespace Token.Kind

/-- the kind's name in listings and messages -/
def label : Kind → String
  | intType => "TYINT"
  | floatType => "TYFLOAT"
  | print => "PRINT"
  | name => "ID"
  | integer => "INT"
  | decimal => "FLOAT"
  | assign => "ASSIGN"
  | plus => "PLUS"
  | minus => "MINUS"
  | times => "TIMES"
  | divide => "DIV"
  | semicolon => "SEMI"
  | endOfText => "EOF"

/-- the kind of the keyword `w`, if `w` is one -/
def ofKeyword? (w : String) : Option Kind :=
  if w = "int" then some intType
  else if w = "float" then some floatType
  else if w = "print" then some print
  else none

/-- the kind of the sign `c`, if `c` is one -/
def ofSign? (c : Char) : Option Kind :=
  if c = '=' then some assign
  else if c = '+' then some plus
  else if c = '-' then some minus
  else if c = '*' then some times
  else if c = '/' then some divide
  else if c = ';' then some semicolon
  else none

end Token.Kind

structure Token where
  kind : Token.Kind
  pos : Position
  value : Option String := none
deriving DecidableEq

namespace Token

/-- the token that stands for the end of the text -/
def endAt (p : Position) : Token := ⟨.endOfText, p, none⟩

/-- what a message calls the token -/
def text (t : Token) : String := t.value.getD t.kind.label

/-- the token in a listing: kind, line and, if it has one, spelling -/
def render (t : Token) : String :=
  "<" ++ t.kind.label ++ ",r:" ++ toString t.pos.line ++
    (match t.value with
      | some v => "," ++ v
      | none => "") ++ ">"

end Token
end DeskCalc
