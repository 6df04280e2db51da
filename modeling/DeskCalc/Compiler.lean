import DeskCalc.Code.Emit
import DeskCalc.Typing

/-!
# The compiler's state

A compiler keeps the symbol table, the log and the code of what it worked on last.  A check starts
from nothing, whatever was there before.  Code is made only of a program whose verdict is `void`,
with the table that is there; a failed attempt leaves what it emitted up to the fault.

* `Compiler.check`      check a program;
* `Compiler.generate`   make code of a checked program;
* `Compiler.compile`    the one and, if there were no faults, the other.
-/

namespace DeskCalc

/-- what a compiler keeps between its steps -/
structure Compiler where
  symbols : SymbolTable := .empty
  log : FaultLog := .empty
  instructions : List Instruction := []
deriving DecidableEq

namespace Compiler

def reset (_ : Compiler) : Compiler := {}

/-- the text of the code made last -/
def code (c : Compiler) : String := codeText c.instructions

def verdict (l : FaultLog) : CheckedType := if l.isEmpty then .void else .error

/-- check a program from a fresh start: the program with its marks, and the table and log of it -/
def check (c : Compiler) (p : Program) : Program × Compiler :=
  let d := c.reset
  let r := checkItems d.symbols p.items
  let log := d.log.append r.faults
  ({ items := r.node, type := some (verdict log) }, { d with symbols := r.table, log := log })

/-- make code of a program that was found in order, in place of the code made before -/
def generate (c : Compiler) (p : Program) : Except CodeFault String × Compiler :=
  if p.type = some .void then
    let r := emitItems { table := c.symbols } p.items
    let d := { c with symbols := r.2.table, instructions := r.1.code }
    match r.1.fault with
    | none => (.ok d.code, d)
    | some f => (.error f, d)
  else (.error .illTyped, c)

def compile (c : Compiler) (p : Program) : Except Fault String × Program × Compiler :=
  let r := c.check p
  if r.1.type = some .error then (.error (.semantic r.2.log), r)
  else
    let g := r.2.generate r.1
    (g.1.mapError .code, r.1, g.2)

end Compiler
end DeskCalc
