import DeskCalc.Code.Instruction
import DeskCalc.Fault
import DeskCalc.SymbolTable

/-!
# Code for a checked tree

Every declaration takes the next free register and notes it in the symbol table; every other use of
a name asks the table for the register.  An identifier counts only if its handle leads to an entry
of its own name, so a tree checked against another table is found out here.  The code of an
expression leaves its value on the stack, operands first; a conversion raises the precision, and the
end of an assignment lowers it again.

Where a step fails, what was emitted before it stays (`Emitted.andThen`), and so do the registers
given away before it.

* `SymbolTable.resolve?`, `SymbolTable.register?`   what an identifier leads to;
* `Expr.emit`, `Item.emit`, `emitItems`             the code of each part.
-/

namespace DeskCalc

/-- the registers in the order in which they are given away -/
def registers : String := "abcdefghijklmnopqrstuvwxyz"

/-- code, and the fault that ended it, if there was one -/
structure Emitted where
  code : List Instruction := []
  fault : Option CodeFault := none
deriving DecidableEq

namespace Emitted

/-- `a` and behind it `b`; after a fault of `a` nothing follows -/
def andThen (a b : Emitted) : Emitted :=
  match a.fault with
  | some _ => a
  | none => ⟨a.code ++ b.code, b.fault⟩

theorem andThen_of_fault {a : Emitted} {f : CodeFault} (h : a.fault = some f) (b : Emitted) :
    a.andThen b = a := by
  unfold andThen; rw [h]

theorem andThen_of_none {a : Emitted} (h : a.fault = none) (b : Emitted) :
    a.andThen b = ⟨a.code ++ b.code, b.fault⟩ := by
  unfold andThen; rw [h]

theorem andThen_assoc (a b c : Emitted) : (a.andThen b).andThen c = a.andThen (b.andThen c) := by
  cases ha : a.fault with
  | some f => rw [andThen_of_fault ha, andThen_of_fault ha, andThen_of_fault ha]
  | none =>
    cases hb : b.fault with
    | some f =>
      have hab : (a.andThen b).fault = some f := by rw [andThen_of_none ha]; exact hb
      rw [andThen_of_fault hab, andThen_of_fault hb]
    | none =>
      have hab : (a.andThen b).fault = none := by rw [andThen_of_none ha]; exact hb
      rw [andThen_of_none hab, andThen_of_none ha, andThen_of_none hb, andThen_of_none ha,
        List.append_assoc]

end Emitted

/-! ## Names and registers -/

/-- the handle of an identifier, if it leads to an entry of the same name -/
def SymbolTable.resolve? (t : SymbolTable) (id : Identifier) : Option Handle :=
  id.symbol.filter fun h => t.name? h == some id.name

def SymbolTable.register? (t : SymbolTable) (id : Identifier) : Option Char :=
  (t.resolve? id).bind fun h => (t.entry? h).bind Symbol.register

def Identifier.unresolved (id : Identifier) : CodeFault := .unresolved id.name id.pos

/-- code that needs the register of an identifier -/
def emitWith (t : SymbolTable) (id : Identifier) (code : Char → List Instruction) : Emitted :=
  match t.register? id with
  | some r => { code := code r }
  | none => { fault := some id.unresolved }

/-! ## Trees -/

/-- the code that leaves the value of an expression on the stack -/
def Expr.emit (t : SymbolTable) : Expr → Emitted
  | const value _ _ _ => { code := [.push value] }
  | deref id _ _ => emitWith t id fun r => [.load r]
  | binary op left right _ _ =>
    ((left.emit t).andThen (right.emit t)).andThen { code := [.arith op] }
  | convert inner _ _ => (inner.emit t).andThen { code := [.precision maxFractionDigits] }

/-- the table as far as registers are noted in it, and the registers still free -/
structure Allocation where
  table : SymbolTable
  free : List Char := registers.toList
deriving DecidableEq

/-- give a register to the identifier of a declaration -/
def Allocation.declare (a : Allocation) (id : Identifier) : Except CodeFault Allocation :=
  match a.table.resolve? id, a.free with
  | none, _ => .error id.unresolved
  | some _, [] => .error (.noRegister id.name id.pos)
  | some h, r :: free => .ok ⟨a.table.setRegister h (some r), free⟩

def Item.emit (a : Allocation) : Item → Emitted × Allocation
  | declare _ id _ _ =>
    match a.declare id with
    | .ok b => ({}, b)
    | .error f => ({ fault := some f }, a)
  | assign target value _ _ =>
    ((value.emit a.table).andThen
      (emitWith a.table target fun r => [.store r, .precision 0]), a)
  | print id _ _ => (emitWith a.table id fun r => [.load r, .print, .pop], a)

/-- the code of a row of items, up to the first fault -/
def emitItems (a : Allocation) : List Item → Emitted × Allocation
  | [] => ({}, a)
  | i :: is =>
    let r := i.emit a
    match r.1.fault with
    | some _ => r
    | none =>
      let rs := emitItems r.2 is
      (r.1.andThen rs.1, rs.2)

end DeskCalc
