import DeskCalc.Position
import DeskCalc.Text
import DeskCalc.Types

/-!
# Programs as trees

A program is a row of items: declarations, assignments and prints.  Every node carries its position
and the type the checker wrote on it, and every identifier also the number of its symbol table
entry; a tree that has not been checked has none of these marks.  A tree may hold marks of an
earlier check, so nothing here says that they are right.

* `Identifier`, `Expr`, `Item`, `Program`   the nodes;
* `Expr.literal`, `Expr.read`, `Expr.apply`, `Expr.widen`   new nodes, placed where their first part
  stands; only `widen`, the reading of an integer as a float, knows its type beforehand;
* `Program.append`, `Program.remove`, `Program.swap`   edits of the row of items;
* `Program.render`   the structure in brackets, without positions and marks.
-/

namespace DeskCalc

/-- the number of an entry in a symbol table -/
abbrev Handle := Nat

/-- a variable's name where it is used or declared -/
structure Identifier where
  name : String
  type : Option CheckedType := none
  symbol : Option Handle := none
  pos : Position
deriving DecidableEq

inductive Expr
  /-- a literal as it was spelled -/
  | const (value : String) (declared : NumType) (type : Option CheckedType) (pos : Position)
  /-- the value of a variable -/
  | deref (id : Identifier) (type : Option CheckedType) (pos : Position)
  /-- two values and an operation -/
  | binary (op : Operator) (left right : Expr) (type : Option CheckedType) (pos : Position)
  /-- an integer read as a float -/
  | convert (inner : Expr) (type : Option CheckedType) (pos : Position)
deriving DecidableEq

namespace Expr

/-- the mark of the checker on the topmost node -/
def type : Expr → Option CheckedType
  | const _ _ t _ | deref _ t _ | binary _ _ _ t _ | convert _ t _ => t

def pos : Expr → Position
  | const _ _ _ p | deref _ _ p | binary _ _ _ _ p | convert _ _ p => p

/-- a literal, not yet checked -/
def literal (value : String) (declared : NumType) (p : Position) : Expr :=
  const value declared none p

def read (id : Identifier) : Expr := deref id none id.pos

def apply (op : Operator) (left right : Expr) : Expr := binary op left right none left.pos

/-- the value of `inner` as a float -/
def widen (inner : Expr) : Expr := convert inner (some (.num .float)) inner.pos

end Expr

/-- a declaration or a statement -/
inductive Item
  /-- a variable of a declared type -/
  | declare (declared : NumType) (id : Identifier) (type : Option CheckedType) (pos : Position)
  /-- a new value for a variable -/
  | assign (target : Identifier) (value : Expr) (type : Option CheckedType) (pos : Position)
  /-- the output of a variable -/
  | print (id : Identifier) (type : Option CheckedType) (pos : Position)
deriving DecidableEq

def Item.type : Item → Option CheckedType
  | declare _ _ t _ | assign _ _ t _ | print _ t _ => t

/-- items in their order, and the verdict of the checker on all of them -/
structure Program where
  items : List Item
  type : Option CheckedType := none
deriving DecidableEq

/-! ## Editing

A row of items is edited without a look at their marks. -/

namespace Program

/-- the items of `q` behind those of `p`; the verdict on `p` stays -/
def append (p q : Program) : Program := { p with items := p.items ++ q.items }

def remove (p : Program) (i : Nat) : Program := { p with items := p.items.eraseIdx i }

def swap (p : Program) (i j : Nat) : Program :=
  match p.items[i]?, p.items[j]? with
  | some x, some y => { p with items := (p.items.set i y).set j x }
  | _, _ => p

end Program

/-! ## The structure as text -/

def Identifier.render (id : Identifier) : String := "[Id:" ++ id.name ++ "]"

def Expr.render : Expr → String
  | const value declared _ _ => "[Const:" ++ declared.name ++ "," ++ value ++ "]"
  | deref id _ _ => "[Deref:" ++ id.render ++ "]"
  | binary op left right _ _ =>
    "[BinOp:" ++ left.render ++ "," ++ op.name ++ "," ++ right.render ++ "]"
  | convert inner _ _ => "[Convert:" ++ inner.render ++ "]"

def Item.render : Item → String
  | declare declared id _ _ => "[Decl:" ++ declared.name ++ "," ++ id.render ++ "]"
  | assign target value _ _ => "[Assign:" ++ target.render ++ "," ++ value.render ++ "]"
  | print id _ _ => "[Print:" ++ id.render ++ "]"

/-- the structure of a program in brackets -/
def Program.render (p : Program) : String :=
  "[Program:" ++ Text.joinWith "" (p.items.map Item.render) ++ "]"

end DeskCalc
