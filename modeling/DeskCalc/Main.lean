import DeskCalc.CommandLine.Run

/-!
# The program

Reads the arguments, the input and nothing else, and writes what the run comes to.
-/

namespace DeskCalc

/-- the number of a system error, which may come with its sign turned -/
def errorNumber (code : UInt32) : Nat :=
  if code.toNat < 0x80000000 then code.toNat else 0x100000000 - code.toNat

def FileFault.ofNumber (reason : String) (code : UInt32) : FileFault :=
  match errorNumber code with
  | 2 => .notFound
  | 20 => .notDirectory
  | 21 => .isDirectory
  | 36 => .nameTooLong
  | n => .system reason n

/-- the fault that an error of the system is -/
def FileFault.ofError : IO.Error → FileFault
  | .noFileOrDirectory _ code reason => .ofNumber reason code
  | .alreadyExists _ code reason | .invalidArgument _ code reason
  | .permissionDenied _ code reason | .resourceExhausted _ code reason
  | .inappropriateType _ code reason | .noSuchThing _ code reason => .ofNumber reason code
  | e => .system (toString e) 0

/-- an action on a path, with its fault -/
def attempt {α : Type} (path : String) (act : IO α) : IO (Except FileFault α) := do
  match Disk.pathFault? path with
  | some f => return .error f
  | none =>
    match ← act.toBaseIO with
    | .ok a => return .ok a
    | .error e => return .error (.ofError e)

/-- all bytes of the standard input -/
partial def readStandardInput : IO ByteArray := do
  let stdin ← IO.getStdin
  let rec loop (acc : ByteArray) : IO ByteArray := do
    let chunk ← stdin.read 65536
    if chunk.isEmpty then pure acc else loop (acc ++ chunk)
  loop .empty

def Invocation.readInput (i : Invocation) : IO (Except String String) := do
  if i.input = "-" then
    return standardInput (← readStandardInput)
  match ← attempt i.input (IO.FS.readBinFile i.input) with
  | .error f => return .error (Fault.file i.input f).message
  | .ok bytes =>
    match String.fromUTF8? bytes with
    | some text => return .ok text
    | none => return .error (Fault.file i.input .notText).message

def tell : Option String → IO UInt32
  | none => return 0
  | some m => do
    IO.eprintln m
    return 1

/-- a run on the files of the system -/
def Invocation.perform (i : Invocation) : IO UInt32 := do
  match ← i.readInput with
  | .error m => tell (some m)
  | .ok text =>
    let r := i.emit.report text
    match r.text, i.output with
    | none, _ => tell r.failure
    | some t, none =>
      IO.println t
      tell r.failure
    | some t, some path =>
      match ← attempt path (IO.FS.writeFile path (t ++ "\n")) with
      | .ok () => tell r.failure
      | .error f => tell (some (writeFailure path f))

end DeskCalc

open DeskCalc in
def main (args : List String) : IO UInt32 := do
  match Request.ofArguments args with
  | .compile i => i.perform
  | .version =>
    IO.print Request.versionText
    return 0
  | .help =>
    IO.print Request.usageText
    return 0
  | .misuse =>
    IO.eprint Request.usageText
    return 2
