/-!
# Types and operators of the language

A variable or a literal is of one of two number types.  What the checker writes on a node is wider:
a number type, `void` for a program that is in order, or `error`.

* `CheckedType.fits`    whether a value of one checked type may be stored in a place of another:
                        the same type, or an integer in a float; an erroneous side fits nothing;
* `CheckedType.join`    the type of an operation on two operands;
* `Operator.symbol`     the calculator's own character for an operator.
-/

namespace DeskCalc

/-- the type a declaration gives to a variable -/
inductive NumType
  | int
  | float
deriving DecidableEq

def NumType.name : NumType → String
  | .int => "INT"
  | .float => "FLOAT"

/-- what the checker finds out about a node -/
inductive CheckedType
  | num (t : NumType)
  | void
  | error
deriving DecidableEq

namespace CheckedType

def name : CheckedType → String
  | num t => t.name
  | void => "VOID"
  | error => "ERROR"

/-- a value of type `source` may be stored in a place of type `target` -/
def fits (target source : CheckedType) : Bool :=
  target != error && source != error &&
    (target == source || (target == num .float && source == num .int))

/-- the type of an operation on operands of types `s` and `t`: numbers of two types meet in the
floats, and what is no number beside its like gives an error -/
def join : CheckedType → CheckedType → CheckedType
  | num s, num t => num (if s = t then s else .float)
  | void, void => void
  | _, _ => error

theorem fits_error_left (t : CheckedType) : fits error t = false := rfl

theorem fits_error_right (t : CheckedType) : fits t error = false := by
  cases t <;> rfl

theorem join_error_left (t : CheckedType) : join error t = error := rfl

theorem join_error_right (t : CheckedType) : join t error = error := by
  cases t <;> rfl

end CheckedType

inductive Operator
  | plus
  | minus
  | times
  | divide
deriving DecidableEq

namespace Operator

/-- the calculator's character for the operation -/
def symbol : Operator → Char
  | plus => '+'
  | minus => '-'
  | times => '*'
  | divide => '/'

def name : Operator → String
  | plus => "PLUS"
  | minus => "MINUS"
  | times => "TIMES"
  | divide => "DIV"

end Operator
end DeskCalc
