import DeskCalc.Text
import DeskCalc.Types

/-!
# Calculator code

The calculator has a stack of numbers, registers named by a character, and a precision, which is the
number of digits it keeps behind the point.  Its code is a row of instructions, written with one
space between neighbours.
-/

namespace DeskCalc

/-- one step of the calculator -/
inductive Instruction
  /-- put a number on the stack -/
  | push (number : String)
  /-- put the value of a register on the stack -/
  | load (register : Char)
  /-- move the top of the stack to a register -/
  | store (register : Char)
  /-- set the precision -/
  | precision (digits : Nat)
  /-- replace the two topmost numbers by the result of an operation -/
  | arith (op : Operator)
  /-- print the top of the stack -/
  | print
  /-- take the top off the stack -/
  | pop
deriving DecidableEq

def Instruction.render : Instruction → String
  | push number => number
  | load r => "l" ++ String.singleton r
  | store r => "s" ++ String.singleton r
  | precision digits => toString digits ++ " k"
  | arith op => String.singleton op.symbol
  | print => "p"
  | pop => "P"

/-- a row of instructions as the calculator reads it -/
def codeText (code : List Instruction) : String :=
  Text.joinWith " " (code.map Instruction.render)

end DeskCalc
