import DeskCalc.Compiler

/-!
# Checking a checked tree

A check rewrites the tree it walks over, so a second check walks over another tree: one with new
marks and with conversions that were not there before.  It finds the same nevertheless.  The marks
that it overwrites are those it would write.  A conversion was put in because an integer stood
where a float was needed; what holds it now finds a float there, and puts in no other
(`as_raise`).

So every part of a tree has the same answer to both checks, and this holds whatever the tree looks
like: with faults in it, with conversions in odd places, with handles of another table.

* `Checked.raise`      what a checked operand is to a second check, where it was widened or not;
* `check_node_expr`, `check_node_item`   one expression and one item;
* `checkItems_node`    a row of items;
* `check_check`        a program, for any two compilers.
-/

namespace DeskCalc

/-! ## Widened operands -/

/-- the type of an operand of type `t` where the type `s` is needed -/
def CheckedType.raise (t s : CheckedType) : CheckedType :=
  if t = .num .int ∧ s = .num .float then .num .float else t

theorem CheckedType.raise_of_ne {s : CheckedType} (h : s ≠ .num .float) (t : CheckedType) :
    t.raise s = t := by
  unfold CheckedType.raise
  rw [if_neg fun hts => h hts.2]

/-- Operands raised to the type of their operation are no longer of two types. -/
theorem CheckedType.join_raise (s t : CheckedType) :
    (s.raise (s.join t)).join (t.raise (s.join t)) = s.join t := by
  rcases s with ⟨⟨⟩⟩ | _ | _ <;> rcases t with ⟨⟨⟩⟩ | _ | _ <;> rfl

theorem CheckedType.fits_raise {t s : CheckedType} (h : fits t s = true) :
    fits t (s.raise t) = true := by
  unfold CheckedType.raise
  split
  next hst =>
    rw [hst.2]
    rfl
  next => exact h

def Checked.raise (c : Checked Expr) (s : CheckedType) : Checked Expr :=
  { c with node := c.as s, type := c.type.raise s }

/-- What was raised is not widened again. -/
theorem as_raise (c : Checked Expr) (s : CheckedType) : (c.raise s).as s = c.as s := by
  have hnot : ¬ ((c.raise s).type = .num .int ∧ s = .num .float) := by
    rintro ⟨hint, rfl⟩
    change (if c.type = .num .int ∧ _ then _ else _) = _ at hint
    split at hint
    next => cases hint
    next hne => exact hne ⟨hint, rfl⟩
  exact if_neg hnot

theorem check_as {t : SymbolTable} {c : Checked Expr} (h : c.node.check t = c) (s : CheckedType) :
    (c.as s).check t = c.raise s := by
  unfold Checked.raise CheckedType.raise Checked.as
  by_cases hw : c.type = .num .int ∧ s = .num .float
  · rw [if_pos hw, if_pos hw, Expr.widen, Expr.check, h]
  · rw [if_neg hw, if_neg hw, h]

theorem operator_raise (op : Operator) (p : Position) (l r : Checked Expr) :
    op.check p (l.raise (l.type.join r.type)) (r.raise (l.type.join r.type)) = op.check p l r := by
  have hjoin : (l.raise (l.type.join r.type)).type.join (r.raise (l.type.join r.type)).type =
      l.type.join r.type := CheckedType.join_raise l.type r.type
  unfold Operator.check
  dsimp only
  rw [hjoin, as_raise, as_raise]
  by_cases herror : l.type.join r.type = .error
  · have hraise : ∀ c : Checked Expr, (c.raise .error).type = c.type := by
      intro c
      exact CheckedType.raise_of_ne (by simp) c.type
    rw [herror, hraise, hraise]
    rfl
  · simp only [herror, false_and, if_false]
    rfl

/-! ## Names, expressions and items -/

section Check
variable (t : SymbolTable)

theorem check_node_identifier (id : Identifier) : (id.check t).node.check t = id.check t := by
  cases h : t.lookup? id.name with
  | none => simp only [Identifier.check, h]
  | some hs => simp only [Identifier.check, h]

theorem check_node_expr (e : Expr) : (e.check t).node.check t = e.check t := by
  induction e with
  | const value declared type p => rfl
  | deref id type p => simp only [Expr.check, check_node_identifier]
  | binary op left right type p ihl ihr =>
    simp only [Expr.check]
    rw [Operator.check]
    dsimp only
    rw [Expr.check, check_as ihl, check_as ihr, operator_raise]
    rfl
  | convert inner type p ih => simp only [Expr.check, ih]

theorem check_node_declare (declared : NumType) (id : Identifier) (p : Position) :
    (checkDeclare t declared id p).node.check t = checkDeclare t declared id p := by
  by_cases h : id.name ∈ t.names
  · have henter : t.enter { name := id.name, type := declared } = (none, t) :=
      SymbolTable.enter_of_mem h
    simp only [checkDeclare, henter, Item.check]
  · have henter : t.enter { name := id.name, type := declared } = (some t.size, _) :=
      SymbolTable.enter_of_not_mem h
    simp only [checkDeclare, henter, Item.check]

theorem check_node_assign (target : Identifier) (value : Expr) (p : Position) :
    (checkAssign t target value p).node.check t = checkAssign t target value p := by
  have ht := check_node_identifier t target
  have hv := check_node_expr t value
  by_cases hfits : CheckedType.fits (target.check t).type (value.check t).type = true
  · have hfits' : CheckedType.fits (target.check t).type
        ((value.check t).raise (target.check t).type).type = true := CheckedType.fits_raise hfits
    have hwalk : checkAssign t target value p = _ := if_pos hfits
    rw [hwalk]
    show checkAssign t (target.check t).node ((value.check t).as (target.check t).type) p = _
    rw [checkAssign, ht, check_as hv, if_pos hfits', as_raise]
    rfl
  · have hwalk : checkAssign t target value p = _ := if_neg hfits
    rw [hwalk]
    show checkAssign t (target.check t).node (value.check t).node p = _
    rw [checkAssign, ht, hv]
    exact if_neg hfits

/-- **One item.**  What a check made of it, a second check leaves as it is, with the same faults
and the same table behind it. -/
theorem check_node_item (i : Item) : (i.check t).node.check t = i.check t := by
  cases i with
  | declare declared id type p => exact check_node_declare t declared id p
  | assign target value type p => exact check_node_assign t target value p
  | print id type p => simp only [Item.check, check_node_identifier]

/-- **A row of items.**  The second walk has the table of the first one in front of every item. -/
theorem checkItems_node (is : List Item) :
    checkItems t (checkItems t is).node = checkItems t is := by
  induction is generalizing t with
  | nil => rfl
  | cons i is ih =>
    rw [checkItems_cons]
    dsimp only
    rw [checkItems_cons, check_node_item, ih]

end Check

/-! ## Programs -/

/-- **A second check changes nothing.**  For every tree and for every two compilers: the checked
tree is given back as it is, with the same verdict, the same log and the same table. -/
theorem check_check (c d : Compiler) (p : Program) : d.check (c.check p).1 = c.check p := by
  have hitems : checkItems .empty (c.check p).1.items = checkItems .empty p.items :=
    checkItems_node .empty p.items
  unfold Compiler.check at hitems ⊢
  dsimp only [Compiler.reset] at hitems ⊢
  rw [hitems]

end DeskCalc
