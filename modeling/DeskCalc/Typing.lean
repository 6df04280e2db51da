import DeskCalc.Fault
import DeskCalc.SymbolTable

/-!
# Checking a tree

One walk over the items, with the table of the names declared so far.  It writes a type on every
node, gives every known identifier its handle, reads an integer as a float where an operator or a
target needs one, and collects the faults it meets without stopping.  A fault is reported once,
where it arises: what holds a faulty part is marked as faulty and says nothing of its own.

A declaration alone changes the table, so a check of an expression reads it and no more.

* `Identifier.check`, `Expr.check`   a use of a name and an expression;
* `Item.check`                       one item, with the table behind it;
* `checkItems`                       a row of items from a table on (`checkItems_append`).

An identifier that is unknown, or declared a second time, keeps the handle it came with.
-/

namespace DeskCalc

/-- a node with the marks of a check, the type found and the faults met, in their order -/
structure Checked (α : Type) where
  node : α
  type : CheckedType
  faults : List SemanticFault := []

/-- a checked expression where the type `t` is needed: an integer is widened to a float -/
def Checked.as (c : Checked Expr) (t : CheckedType) : Expr :=
  if c.type = .num .int ∧ t = .num .float then c.node.widen else c.node

def Identifier.check (table : SymbolTable) (id : Identifier) : Checked Identifier :=
  match table.lookup? id.name with
  | some (h, s) =>
    { node := { id with symbol := some h, type := some (.num s.type) }, type := .num s.type }
  | none =>
    { node := { id with type := some .error }, type := .error
      faults := [.undeclared id.name id.pos] }

/-! ## Expressions -/

/-- an operation on two checked operands; it is a fault of its own only if neither operand is one -/
def Operator.check (op : Operator) (p : Position) (l r : Checked Expr) : Checked Expr :=
  let t := l.type.join r.type
  { node := .binary op (l.as t) (r.as t) (some t) p
    type := t
    faults := l.faults ++ r.faults ++
      if t = .error ∧ l.type ≠ .error ∧ r.type ≠ .error then [.operands op l.type r.type p]
      else [] }

/-- an expression over the names declared so far; a conversion yields a float whatever it holds -/
def Expr.check (table : SymbolTable) : Expr → Checked Expr
  | const value declared _ p =>
    { node := const value declared (some (.num declared)) p, type := .num declared }
  | deref id _ p =>
    let c := id.check table
    { node := deref c.node (some c.type) p, type := c.type, faults := c.faults }
  | binary op left right _ p => op.check p (left.check table) (right.check table)
  | convert inner _ p =>
    let c := inner.check table
    { node := convert c.node (some (.num .float)) p, type := .num .float, faults := c.faults }

/-! ## Items -/

/-- a part of a program with the marks of a check, the table behind it and the faults met -/
structure Walked (α : Type) where
  node : α
  table : SymbolTable
  faults : List SemanticFault := []

/-- a declaration enters its name, unless the name is there -/
def checkDeclare (table : SymbolTable) (declared : NumType) (id : Identifier) (p : Position) :
    Walked Item :=
  match table.enter { name := id.name, type := declared } with
  | (some h, table') =>
    { node := .declare declared { id with symbol := some h, type := some (.num declared) }
        (some (.num declared)) p
      table := table' }
  | (none, table') =>
    { node := .declare declared { id with type := some .error } (some .error) p
      table := table'
      faults := [.duplicate id.name id.pos] }

/-- an assignment: first the target, then the value, then whether the one may hold the other -/
def checkAssign (table : SymbolTable) (target : Identifier) (value : Expr) (p : Position) :
    Walked Item :=
  let t := target.check table
  let v := value.check table
  let fs := t.faults ++ v.faults
  if CheckedType.fits t.type v.type then
    { node := .assign t.node (v.as t.type) (some t.type) p, table := table, faults := fs }
  else
    { node := .assign t.node v.node (some .error) p
      table := table
      faults := fs ++
        if t.type = .error ∨ v.type = .error then [] else [.assignment t.type v.type p] }

def Item.check (table : SymbolTable) : Item → Walked Item
  | declare declared id _ p => checkDeclare table declared id p
  | assign target value _ p => checkAssign table target value p
  | print id _ p =>
    let c := id.check table
    { node := .print c.node (some c.type) p, table := table, faults := c.faults }

def checkItems (table : SymbolTable) : List Item → Walked (List Item)
  | [] => { node := [], table := table }
  | i :: is =>
    let r := i.check table
    let rs := checkItems r.table is
    { node := r.node :: rs.node, table := rs.table, faults := r.faults ++ rs.faults }

theorem checkItems_nil (table : SymbolTable) :
    checkItems table [] = { node := [], table := table } := rfl

theorem checkItems_cons (table : SymbolTable) (i : Item) (is : List Item) :
    checkItems table (i :: is) =
      { node := (i.check table).node :: (checkItems (i.check table).table is).node
        table := (checkItems (i.check table).table is).table
        faults := (i.check table).faults ++ (checkItems (i.check table).table is).faults } := rfl

/-- **One pass.**  The check of a row is the check of its front, and then of its back from the table
that the front leaves. -/
theorem checkItems_append (table : SymbolTable) (is js : List Item) :
    checkItems table (is ++ js) =
      { node := (checkItems table is).node ++ (checkItems (checkItems table is).table js).node
        table := (checkItems (checkItems table is).table js).table
        faults := (checkItems table is).faults ++
          (checkItems (checkItems table is).table js).faults } := by
  induction is generalizing table with
  | nil => rfl
  | cons i is ih =>
    rw [List.cons_append, checkItems_cons, ih, checkItems_cons, List.append_assoc,
      List.cons_append]

end DeskCalc
