import DeskCalc.Text
import DeskCalc.Token
import DeskCalc.Types

/-!
# Faults

What can go wrong between a text and its code, each with the place it is about and its wording.
A lexical or syntax fault ends the work; semantic faults are collected in a log, in the order in
which they are found; a code fault says why no code was made of a checked program; a file fault
says why a file gave no text.

* `LexicalFault`, `SyntaxFault`, `SemanticFault`, `CodeFault`, `FileFault`   the five families,
  each with constructors named for the cause;
* `FaultLog`         the semantic faults of one program;
* `Fault`            any of them, as the whole compilation reports it (`Fault.message`).
-/

namespace DeskCalc

/-! ## In the characters -/

def maxFractionDigits : Nat := 5

/-- a run of characters that makes no token -/
structure LexicalFault where
  message : String
  pos : Position
deriving DecidableEq

namespace LexicalFault

/-- a character that begins no token -/
def illegalCharacter (c : Char) (p : Position) : LexicalFault :=
  ⟨"illegal character '" ++ Text.escape c ++ "'", p⟩

/-- a number whose fraction is empty or too long -/
def malformedDecimal (spelling : String) (digits : Nat) (p : Position) : LexicalFault :=
  ⟨"malformed float literal '" ++ spelling ++ "': expected 1 to " ++ toString maxFractionDigits ++
    " fractional digits, found " ++ toString digits, p⟩

def render (f : LexicalFault) : String := f.pos.locate f.message

end LexicalFault

/-! ## In the order of the tokens -/

/-- a token that cannot stand where it stands -/
structure SyntaxFault where
  message : String
  expected : Option Token.Kind
  found : Token.Kind
  text : String
  pos : Position
deriving DecidableEq

namespace SyntaxFault

/-- the token `t` where only the kind `expected` can stand; with no kind given, `t` is refused among
several that could -/
def refused (expected : Option Token.Kind) (t : Token) : SyntaxFault :=
  { message :=
      (match expected with
        | some k => "expected " ++ k.label ++ " but found "
        | none => "unexpected token ") ++ t.kind.label ++ " '" ++ t.text ++ "'"
    expected := expected
    found := t.kind
    text := t.text
    pos := t.pos }

def render (f : SyntaxFault) : String := f.pos.locate f.message

end SyntaxFault

/-! ## In names and types -/

inductive SemanticFault.Kind
  | duplicateDeclaration
  | undeclaredVariable
  | incompatibleAssignment
  | incompatibleOperands
deriving DecidableEq

/-- a violation that the checker found -/
structure SemanticFault where
  kind : SemanticFault.Kind
  message : String
  pos : Position
deriving DecidableEq

namespace SemanticFault

def duplicate (name : String) (p : Position) : SemanticFault :=
  ⟨.duplicateDeclaration, "Declaration: variable '" ++ name ++ "' already declared.", p⟩

/-- a use of a name that no earlier declaration gives -/
def undeclared (name : String) (p : Position) : SemanticFault :=
  ⟨.undeclaredVariable, "Variable: variable '" ++ name ++ "' is not declared.", p⟩

/-- a value of a type that its target cannot hold -/
def assignment (target source : CheckedType) (p : Position) : SemanticFault :=
  ⟨.incompatibleAssignment, "Assignment: cannot assign '" ++ source.name ++ "' type to '" ++
    target.name ++ "' type.", p⟩

def operands (op : Operator) (left right : CheckedType) (p : Position) : SemanticFault :=
  ⟨.incompatibleOperands, "BinaryOperation: incompatible operand types '" ++ left.name ++
    "' and '" ++ right.name ++ "' for '" ++ op.name ++ "'.", p⟩

def render (f : SemanticFault) : String := f.pos.locate f.message

end SemanticFault

/-- the semantic faults of a program, in the order in which they were found -/
structure FaultLog where
  entries : List SemanticFault := []
deriving DecidableEq

namespace FaultLog

def empty : FaultLog := ⟨[]⟩

def push (l : FaultLog) (f : SemanticFault) : FaultLog := ⟨l.entries ++ [f]⟩

/-- the log with the faults of a further part -/
def append (l : FaultLog) (fs : List SemanticFault) : FaultLog := ⟨l.entries ++ fs⟩

def isEmpty (l : FaultLog) : Bool := l.entries.isEmpty

def size (l : FaultLog) : Nat := l.entries.length

def count (l : FaultLog) (k : SemanticFault.Kind) : Nat :=
  l.entries.countP fun f => f.kind == k

/-- the log in words, a line for each fault -/
def render (l : FaultLog) : String :=
  if l.isEmpty then "no semantic errors"
  else Text.joinWith "\n" (l.entries.map SemanticFault.render)

@[simp] theorem entries_empty : empty.entries = [] := rfl

@[simp] theorem entries_append (l : FaultLog) (fs : List SemanticFault) :
    (l.append fs).entries = l.entries ++ fs := rfl

theorem append_nil (l : FaultLog) : l.append [] = l := by
  cases l; simp [append]

theorem append_append (l : FaultLog) (fs gs : List SemanticFault) :
    (l.append fs).append gs = l.append (fs ++ gs) := by
  simp [append, List.append_assoc]

theorem isEmpty_iff (l : FaultLog) : l.isEmpty = true ↔ l.entries = [] := List.isEmpty_iff

end FaultLog

/-! ## On the way to code -/

/-- the reason why a program got no code -/
inductive CodeFault
  | illTyped
  | noRegister (name : String) (pos : Position)
  | unresolved (name : String) (pos : Position)
deriving DecidableEq

def CodeFault.render : CodeFault → String
  | illTyped => "program is not well-typed; code generation refused"
  | noRegister name p => p.locate ("no register left for variable '" ++ name ++ "'")
  | unresolved name p => p.locate ("variable '" ++ name ++ "'") ++ " has no allocated register"

/-! ## On the disk -/

/-- the reason why a file could not be read or written -/
inductive FileFault
  | notFound
  | notDirectory
  | isDirectory
  | nameTooLong
  | notText
  /-- a path with a zero character, which no file system is asked about -/
  | zeroInPath
  | system (reason : String) (code : Nat)
deriving DecidableEq

namespace FileFault

/-- a fault the operating system reports: its reason and its number -/
def ofSystem (reason : String) (code : Nat) : String :=
  reason ++ " (os error " ++ toString code ++ ")"

def render : FileFault → String
  | notFound => ofSystem "No such file or directory" 2
  | notDirectory => ofSystem "Not a directory" 20
  | isDirectory => ofSystem "Is a directory" 21
  | nameTooLong => ofSystem "File name too long" 36
  | notText => "stream did not contain valid UTF-8"
  | zeroInPath => "file name contained an unexpected NUL byte"
  | system reason code => ofSystem reason code

end FileFault

/-! ## All of them -/

/-- why a compilation ended without code -/
inductive Fault
  | file (path : String) (cause : FileFault)
  | lexical (cause : LexicalFault)
  | grammar (cause : SyntaxFault)
  | semantic (log : FaultLog)
  | code (cause : CodeFault)
deriving DecidableEq

def Fault.message : Fault → String
  | file path cause => "failed to read '" ++ path ++ "': " ++ cause.render
  | lexical cause => "Lexical Error: " ++ cause.render
  | grammar cause => "Syntax Error: " ++ cause.render
  | semantic log => "Semantic Error:\n" ++ log.render
  | code cause => "Codegen Error: " ++ cause.render

end DeskCalc
