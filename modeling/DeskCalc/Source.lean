import DeskCalc.Compiler
import DeskCalc.Disk
import DeskCalc.Tree.Parse

/-!
# From a text to its code

The stages put together, for a text or for what is left of one.  Semantic faults do not end an
analysis, they stay in its log; code is refused as long as there are any.

* `Source.tokenize`, `Source.parse`, `Source.analyze`, `Source.compile`   a text up to its tokens,
  its tree, its checked tree and its code;
* `Source.ofFile`, `Source.compileFile`   the text of a file, and its code;
* `Analysis.generate`                     code from an analysis, as often as it is asked for.
-/

namespace DeskCalc

/-- a checked program and the compiler that checked it -/
structure Analysis where
  program : Program
  compiler : Compiler
deriving DecidableEq

namespace Analysis

def ofProgram (p : Program) : Analysis :=
  let r := Compiler.check {} p
  ⟨r.1, r.2⟩

def log (a : Analysis) : FaultLog := a.compiler.log

def symbols (a : Analysis) : SymbolTable := a.compiler.symbols

def hasFaults (a : Analysis) : Bool := !a.log.isEmpty

/-- code, if the check found no faults -/
def generate (a : Analysis) : Except Fault String × Analysis :=
  if a.hasFaults then (.error (.semantic a.log), a)
  else
    let g := a.compiler.generate a.program
    (g.1.mapError .code, { a with compiler := g.2 })

end Analysis

def Stream.analyze (s : Stream) : Except Fault Analysis := s.parse.1.map .ofProgram

namespace Source

/-- the tokens of a text, the end token included -/
def tokenize (text : String) : Except Fault (List Token) :=
  (Reader.ofText text).all.1.mapError .lexical

/-- the tree of a text, not yet checked -/
def parse (text : String) : Except Fault Program := (Stream.ofText text).parse.1

def analyze (text : String) : Except Fault Analysis := (Stream.ofText text).analyze

section Analyze
variable {text : String}

theorem analyze_eq (text : String) : analyze text = (parse text).map .ofProgram := rfl

theorem analyze_of_parse {p : Program} (h : parse text = .ok p) :
    analyze text = .ok (.ofProgram p) := by
  rw [analyze_eq, h]
  rfl

theorem analyze_inv {a : Analysis} (h : analyze text = .ok a) :
    ∃ p, parse text = .ok p ∧ a = .ofProgram p := by
  rw [analyze_eq] at h
  cases hp : parse text with
  | error f =>
    rw [hp] at h
    cases h
  | ok p =>
    rw [hp] at h
    exact ⟨p, rfl, (Except.ok.inj h).symm⟩

end Analyze

def compile (text : String) : Except Fault String :=
  match parse text with
  | .error f => .error f
  | .ok p => (Compiler.compile {} p).1

def ofFile (disk : Disk) (path : String) : Except Fault String :=
  (disk.readText path).mapError (.file path)

def compileFile (disk : Disk) (path : String) : Except Fault String :=
  (ofFile disk path).bind compile

end Source
end DeskCalc
