/-!
# Arguments

What a command line asks for.  Arguments are read from left to right.  Options may stand before and
behind the one operand, the input; `--` ends them.  A long option takes its value behind an equals
sign or from the next argument, a short one from the rest of its own argument or from the next;
short flags may be written together.  `-` alone is an operand or a value, never an option.  An
option other than a flag is given once.  A request for the version or for help is granted where it
stands, if nothing was wrong before it.  A request for more log lines may be made any number of
times; a run writes none, so it comes to nothing.

* `Emit`, `Invocation`        what to write, and all that one run needs to know;
* `Request.ofArguments`       the request that a command line is.
-/

namespace DeskCalc

/-- what a run writes -/
inductive Emit
  | code
  | tokens
  | ast
  | symbols
deriving DecidableEq

def Emit.ofName? (name : String) : Option Emit :=
  if name = "code" then some .code
  else if name = "tokens" then some .tokens
  else if name = "ast" then some .ast
  else if name = "symbols" then some .symbols
  else none

/-- one run: its input, where its output goes and what it writes -/
structure Invocation where
  input : String
  output : Option String := none
  emit : Emit := .code
deriving DecidableEq

/-- what a command line asks for -/
inductive Request
  | compile (run : Invocation)
  | version
  | help
  /-- nothing that could be done -/
  | misuse
deriving DecidableEq

namespace Request

/-- the options that have a value -/
inductive Setting
  | output
  | emit
deriving DecidableEq

/-- what has been read of a command line -/
structure Draft where
  input : Option String := none
  output : Option String := none
  emit : Option Emit := none
deriving DecidableEq

/-- what an argument does -/
inductive Step
  /-- reading goes on -/
  | next (d : Draft)
  /-- the next argument is the value of an option -/
  | await (d : Draft) (s : Setting)
  /-- the request is known -/
  | stop (r : Request)
deriving DecidableEq

namespace Draft

/-- the operand; there is only one -/
def operand (d : Draft) (a : String) : Step :=
  match d.input with
  | none => .next { d with input := some a }
  | some _ => .stop .misuse

/-- a value for an option: an output is not empty, a form has a name, and none is given twice -/
def set (d : Draft) : Setting → String → Step
  | .output, v =>
    if d.output.isSome || v = "" then .stop .misuse else .next { d with output := some v }
  | .emit, v =>
    match d.emit, Emit.ofName? v with
    | none, some e => .next { d with emit := some e }
    | _, _ => .stop .misuse

/-- the letters of an argument with short options -/
def short (d : Draft) : List Char → Step
  | [] => .next d
  | 'v' :: cs => d.short cs
  | 'V' :: _ => .stop .version
  | 'h' :: _ => .stop .help
  | ['o'] => .await d .output
  | 'o' :: '=' :: cs => d.set .output (String.ofList cs)
  | 'o' :: cs => d.set .output (String.ofList cs)
  | _ => .stop .misuse

/-- a long option without its dashes, with a value if one is attached -/
def long (d : Draft) (name : String) : Option String → Step
  | none =>
    if name = "output" then .await d .output
    else if name = "emit" then .await d .emit
    else if name = "verbose" then .next d
    else if name = "version" then .stop .version
    else if name = "help" then .stop .help
    else .stop .misuse
  | some v =>
    if name = "output" then d.set .output v
    else if name = "emit" then d.set .emit v
    else .stop .misuse

/-- an argument before the end of the options -/
def argument (d : Draft) (a : String) : Step :=
  match a.toList with
  | '-' :: '-' :: cs =>
    d.long (String.ofList (cs.takeWhile (· ≠ '=')))
      (match cs.dropWhile (· ≠ '=') with
        | [] => none
        | _ :: v => some (String.ofList v))
  | '-' :: c :: cs => d.short (c :: cs)
  | _ => d.operand a

def finish (d : Draft) : Request :=
  match d.input with
  | none => .misuse
  | some input =>
    .compile { input := input, output := d.output, emit := d.emit.getD .code }

/-- the arguments behind the end of the options -/
def operands (d : Draft) : List String → Request
  | [] => d.finish
  | a :: as =>
    match d.operand a with
    | .next e => e.operands as
    | _ => .misuse

/-- whether an argument is an option, or ends them, and so is no value -/
def isOption (a : String) : Bool :=
  match a.toList with
  | '-' :: _ :: _ => true
  | _ => false

/-- the arguments from the left, where an option may be waiting for its value -/
def readOn (d : Draft) : Option Setting → List String → Request
  | none, [] => d.finish
  | some _, [] => .misuse
  | none, a :: as =>
    if a = "--" then d.operands as
    else
      match d.argument a with
      | .next e => e.readOn none as
      | .await e s => e.readOn (some s) as
      | .stop r => r
  | some s, a :: as =>
    if isOption a then .misuse
    else
      match d.set s a with
      | .next e => e.readOn none as
      | .await e t => e.readOn (some t) as
      | .stop r => r

end Draft

def ofArguments (args : List String) : Request := Draft.readOn {} none args

end Request
end DeskCalc
