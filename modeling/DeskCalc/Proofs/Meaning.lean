import DeskCalc.Code.Instruction
import DeskCalc.Tree
import Mathlib.Logic.Function.Basic

/-!
# What code and trees do

Two readings of a program, side by side.  The calculator reads a row of instructions: it has a
stack, registers and a precision, and it stops where the stack holds too little.  The evaluator
reads the tree: it has a store of variables and a precision, and it cannot stop.  Neither knows what
a number is.  The numbers are a parameter (`Arithmetic`), and an operation sees the precision in
force, so that nothing said of all arithmetics rests on a law of numbers.

* `Machine.step`, `Machine.run`   the calculator (`run_append`);
* `Expr.value`                    the value of an expression and the precision behind it;
* `World.after`, `World.run`      one item, and a row of items.

In both readings a conversion leaves the value alone and raises the precision to five digits, and
the end of an assignment lowers it to none.
-/

namespace DeskCalc

/-- numbers as a calculator has them: a zero, the numbers that literals stand for, and the four
operations, which see the precision first, then the left and the right operand -/
structure Arithmetic (V : Type*) where
  zero : V
  number : String → V
  apply : Operator → Nat → V → V → V

/-! ## The calculator -/

/-- the state of a calculator -/
structure Machine (V : Type*) where
  stack : List V
  register : Char → V
  precision : Nat
  printed : List V

namespace Machine
variable {V : Type*} (A : Arithmetic V)

def start : Machine V := ⟨[], fun _ => A.zero, 0, []⟩

/-- one instruction; there is no next state if the stack holds too little for it -/
def step (m : Machine V) : Instruction → Option (Machine V)
  | .push number => some { m with stack := A.number number :: m.stack }
  | .load r => some { m with stack := m.register r :: m.stack }
  | .store r =>
    match m.stack with
    | v :: vs => some { m with stack := vs, register := Function.update m.register r v }
    | [] => none
  | .precision digits => some { m with precision := digits }
  | .arith op =>
    match m.stack with
    | right :: left :: vs =>
      some { m with stack := A.apply op m.precision left right :: vs }
    | _ => none
  | .print =>
    match m.stack with
    | v :: _ => some { m with printed := m.printed ++ [v] }
    | [] => none
  | .pop =>
    match m.stack with
    | _ :: vs => some { m with stack := vs }
    | [] => none

def run : Machine V → List Instruction → Option (Machine V)
  | m, [] => some m
  | m, i :: is => (m.step A i).bind fun m' => m'.run is

theorem run_nil (m : Machine V) : m.run A [] = some m := rfl

theorem run_cons (m : Machine V) (i : Instruction) (is : List Instruction) :
    m.run A (i :: is) = (m.step A i).bind fun m' => m'.run A is := rfl

theorem run_append (m : Machine V) (is js : List Instruction) :
    m.run A (is ++ js) = (m.run A is).bind fun m' => m'.run A js := by
  induction is generalizing m with
  | nil => rfl
  | cons i is ih =>
    rw [List.cons_append, run_cons, run_cons, Option.bind_assoc]
    exact congrArg _ (funext fun m' => ih m')

/-- the state with a value on top of the stack and a precision in force -/
def holding (m : Machine V) (r : V × Nat) : Machine V :=
  { m with stack := r.1 :: m.stack, precision := r.2 }

end Machine

/-! ## The evaluator -/

section
variable {V : Type*} (A : Arithmetic V)

/-- the value of an expression that is met at a given precision, and the precision behind it; the
left operand comes first -/
def Expr.value (store : String → V) : Expr → Nat → V × Nat
  | const number _ _ _, k => (A.number number, k)
  | deref id _ _, k => (store id.name, k)
  | binary op left right _ _, k =>
    let l := left.value store k
    let r := right.value store l.2
    (A.apply op r.2 l.1 r.1, r.2)
  | convert inner _ _, k => ((inner.value store k).1, 5)

/-- what a running program changes: its variables, the precision and what it has printed -/
structure World (V : Type*) where
  store : String → V
  precision : Nat
  printed : List V

namespace World

def start : World V := ⟨fun _ => A.zero, 0, []⟩

def after (w : World V) : Item → World V
  | .declare .. => w
  | .assign target value _ _ =>
    { w with
      store := Function.update w.store target.name (value.value A w.store w.precision).1
      precision := 0 }
  | .print id _ _ => { w with printed := w.printed ++ [w.store id.name] }

def run (w : World V) (is : List Item) : World V := is.foldl (after A) w

theorem run_nil (w : World V) : w.run A [] = w := rfl

theorem run_cons (w : World V) (i : Item) (is : List Item) :
    w.run A (i :: is) = (w.after A i).run A is := rfl

end World
end
end DeskCalc
